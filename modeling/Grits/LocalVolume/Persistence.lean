import Grits.Library.Runs
import Grits.LocalVolume.Load

/-!
# A persistent volume

`LocalVolume` of `internal/gritsd/module_volume.go`: links, each followed by a
`save`, and checkpoints, which are a `save` alone, by any number of callers at a
time.  A link runs under `treeMtx` and is one step; `save` holds `persistMtx`,
which no link takes, and reads the root and the serial number in two critical
sections of `cacheMtx`.

`ns` is the name store, `file` what `var/localroots` says of the volume.
-/

namespace Grits

open Prog Runs

/-- The root and the serial number of a name store. -/
def NameStore.pair (s : NameStore) : BlobAddr × ℤ := (s.rootAddr, s.serialNumber)

/-- The root and the serial number of a stored state. -/
def RootState.pair (state : RootState) : BlobAddr × ℤ := (state.rootAddr, state.serialNumber)

/-- How far a call of `save` is.  `own` is what the link before it committed; a
checkpoint commits nothing. -/
inductive SaveCall where
  /-- `save` is called. -/
  | called (own : Option (BlobAddr × ℤ))
  /-- It holds `persistMtx`. -/
  | locked (own : Option (BlobAddr × ℤ))
  /-- `GetRoot` has returned. -/
  | rootRead (own : Option (BlobAddr × ℤ)) (root : BlobAddr)
  /-- `GetSerialNumber` has returned too. -/
  | stateRead (own : Option (BlobAddr × ℤ)) (state : RootState)
  /-- The temporary file is written. -/
  | written (own : Option (BlobAddr × ℤ)) (state : RootState)
  /-- The call returns without an error. -/
  | saved (own : Option (BlobAddr × ℤ))

/-- The call holds `persistMtx`. -/
def SaveCall.Holds : SaveCall → Prop
  | .called _ => False
  | .locked _ => True
  | .rootRead _ _ => True
  | .stateRead _ _ => True
  | .written _ _ => True
  | .saved _ => False

/-- A volume with the calls of `save` under way.  `holders` are the references to
nodes held outside. -/
structure LocalVolume where
  ns : NameStore
  holders : Multiset BlobAddr
  calls : ℕ → Option SaveCall
  persistMtx : Option ℕ
  /-- The file `.json.new`. -/
  tempFile : Option RootState
  /-- The file `.json`. -/
  file : Option RootState

/-- The volume after the call `id` went on to `call`. -/
def LocalVolume.goOn (v : LocalVolume) (id : ℕ) (call : Option SaveCall) : LocalVolume :=
  { v with calls := Function.update v.calls id call }

/-- Calls of the name store that neither link nor clean up, and changes to the blob
store by its other users. -/
inductive Served (E : Env) : Multiset BlobAddr → NameStore → Multiset BlobAddr → NameStore → Prop
  | lookup {holders : Multiset BlobAddr} {s t : NameStore} {callbacks : List LookupCallback}
      {paths : List GoString} {startAddr : BlobAddr} {principal : PrincipalRef}
      {r : Except Halt LookupResponse}
      (hcallbacks : ∀ callback ∈ callbacks, callback.ReadOnly E.toEncoding)
      (hrun : Grits.lookup E callbacks paths startAddr principal s = (r, t)) :
      Served E holders s holders t
  | take {holders : Multiset BlobAddr} {s t : NameStore} {addr : BlobAddr}
      (hrun : getFileNode E addr s = (.ok (), t)) : Served E holders s (addr ::ₘ holders) t
  | takeFailed {holders : Multiset BlobAddr} {s t : NameStore} {addr : BlobAddr} {halt : Halt}
      (hrun : getFileNode E addr s = (.error halt, t)) : Served E holders s holders t
  | release {holders : Multiset BlobAddr} {s t : NameStore} {addr : BlobAddr}
      {r : Except Halt Unit} (hrun : releaseNode E addr s = (r, t)) :
      Served E (addr ::ₘ holders) s holders t
  | blobs {holders : Multiset BlobAddr} {s : NameStore}
      {blobs : Finmap fun _ : BlobAddr => LocalCachedFile}
      (hserves : Serves E.toEncoding blobs s) :
      Served E holders s holders { s with blobStore := blobs }

/-- The steps of a persistent volume. -/
inductive VolumeStep (E : Env) : LocalVolume → LocalVolume → Prop
  | link {v : LocalVolume} {t : NameStore} {id : ℕ} {H : Hooks} {requests : List LinkRequest}
      {returnResults : Bool} {principal : PrincipalRef} {response : Option LookupResponse}
      (hidle : v.calls id = none) (hH : H.ReadOnly E.toEncoding)
      (hrun : multiLink E H requests returnResults principal v.ns = (.ok response, t)) :
      VolumeStep E v ({ v with ns := t }.goOn id (some (.called (some t.pair))))
  | linkFailed {v : LocalVolume} {t : NameStore} {H : Hooks} {requests : List LinkRequest}
      {returnResults : Bool} {principal : PrincipalRef} {e : GoErr} (hH : H.ReadOnly E.toEncoding)
      (hrun : multiLink E H requests returnResults principal v.ns = (.error (.err e), t)) :
      VolumeStep E v { v with ns := t }
  | checkpoint {v : LocalVolume} {id : ℕ} (hidle : v.calls id = none) :
      VolumeStep E v (v.goOn id (some (.called none)))
  | lock {v : LocalVolume} {id : ℕ} {own : Option (BlobAddr × ℤ)}
      (hcall : v.calls id = some (.called own)) (hfree : v.persistMtx = none) :
      VolumeStep E v ({ v with persistMtx := some id }.goOn id (some (.locked own)))
  | getRoot {v : LocalVolume} {id : ℕ} {own : Option (BlobAddr × ℤ)}
      (hcall : v.calls id = some (.locked own)) :
      VolumeStep E v (v.goOn id (some (.rootRead own v.ns.rootAddr)))
  | getSerialNumber {v : LocalVolume} {id : ℕ} {own : Option (BlobAddr × ℤ)} {root : BlobAddr}
      {lastModified : GoString} (hcall : v.calls id = some (.rootRead own root)) :
      VolumeStep E v
        (v.goOn id (some (.stateRead own ⟨root, v.ns.serialNumber, lastModified⟩)))
  | writeFile {v : LocalVolume} {id : ℕ} {own : Option (BlobAddr × ℤ)} {state : RootState}
      (hcall : v.calls id = some (.stateRead own state)) :
      VolumeStep E v ({ v with tempFile := some state }.goOn id (some (.written own state)))
  | writeFileFailed {v : LocalVolume} {id : ℕ} {own : Option (BlobAddr × ℤ)} {state : RootState}
      (hcall : v.calls id = some (.stateRead own state)) :
      VolumeStep E v ({ v with tempFile := none, persistMtx := none }.goOn id none)
  | rename {v : LocalVolume} {id : ℕ} {own : Option (BlobAddr × ℤ)} {state : RootState}
      (hcall : v.calls id = some (.written own state)) :
      VolumeStep E v ({ v with file := v.tempFile, tempFile := none, persistMtx := none }.goOn id
        (some (.saved own)))
  | renameFailed {v : LocalVolume} {id : ℕ} {own : Option (BlobAddr × ℤ)} {state : RootState}
      (hcall : v.calls id = some (.written own state)) :
      VolumeStep E v ({ v with persistMtx := none }.goOn id none)
  | returned {v : LocalVolume} {id : ℕ} {own : Option (BlobAddr × ℤ)}
      (hcall : v.calls id = some (.saved own)) : VolumeStep E v (v.goOn id none)
  | serve {v : LocalVolume} {holders : Multiset BlobAddr} {t : NameStore}
      (hserved : Served E v.holders v.ns holders t) :
      VolumeStep E v { v with ns := t, holders := holders }
  | cleanup {v : LocalVolume} {t : NameStore} {r : Except Halt Unit}
      (hrun : Grits.cleanup E v.ns = (r, t)) : VolumeStep E v { v with ns := t }

/-- A volume that has just been opened, by nobody in use. -/
structure Opened (E : Env) (v : LocalVolume) : Prop where
  store : ∃ blobs, ProperBlobs E.toEncoding blobs ∧
    newLocalVolume E blobs v.file = (.ok (), v.ns)
  holders : v.holders = 0
  calls : ∀ id, v.calls id = none
  persistMtx : v.persistMtx = none

/-! ## What the name store does in a step -/

variable {E : Env} {extra holders holders' : Multiset BlobAddr} {s t : NameStore}

/-- A call that neither links nor cleans up keeps the root and every loaded node. -/
structure Undisturbed (E : Encoding) (s t : NameStore) : Prop where
  pair : t.pair = s.pair
  ready : KeepsReady E s t

theorem Quiet.undisturbed {δ : BlobAddr → ℤ} (h : Quiet δ s t) (E : Encoding) :
    Undisturbed E s t where
  pair := by rw [NameStore.pair, h.rootAddr, h.serialNumber, NameStore.pair]
  ready := fun _ hready => hready.quiet h

theorem Accounts.served (hdense : E.sparse = false)
    (h : Accounts E.toEncoding extra holders s) (hserved : Served E holders s holders' t) :
    Accounts E.toEncoding extra holders' t ∧ Undisturbed E.toEncoding s t := by
  cases hserved with
  | @lookup _ _ _ _ _ _ _ r hcallbacks hrun =>
      have hspec := wp_of_run (lookup_spec h.sound hdense h.root_ready.cached hcallbacks _ _ _) hrun
      rcases r with (_ | _ | _ | _) | _
      · exact ⟨h.kept hspec, hspec.quiet.undisturbed _⟩
      · exact hspec.elim
      · exact hspec.elim
      · exact hspec.elim
      · exact ⟨h.kept hspec, hspec.quiet.undisturbed _⟩
  | take hrun =>
      obtain ⟨ht, hst⟩ := wp_of_run (h.getFileNode_spec hdense _) hrun
      exact ⟨ht, hst.undisturbed _⟩
  | @takeFailed _ _ _ _ halt hrun =>
      have hspec := wp_of_run (h.getFileNode_spec hdense _) hrun
      cases halt with
      | err e => exact ⟨h.kept hspec, hspec.quiet.undisturbed _⟩
      | crash c => exact hspec.elim
      | dangling a => exact hspec.elim
      | outOfFuel => exact hspec.elim
  | @release _ _ _ _ r hrun =>
      have hspec := wp_of_run (h.releaseNode_spec hdense) hrun
      rcases r with (_ | _ | _ | _) | _
      · exact hspec.elim
      · exact hspec.elim
      · exact hspec.elim
      · exact hspec.elim
      · exact ⟨hspec.1, hspec.2.undisturbed _⟩
  | blobs hserves =>
      refine ⟨⟨⟨hserves.hashed, ?_, h.sound.nodes⟩, h.counted, h.outside⟩, rfl, fun _ hready => hready⟩
      intro blob
      rw [Multiset.count_zero, add_zero]
      exact hserves.counted blob

/-- The root stays, or the serial number goes up. -/
def Advances (s t : NameStore) : Prop := t.pair = s.pair ∨ t.serialNumber = s.serialNumber + 1

theorem Advances.le (h : Advances s t) : s.serialNumber ≤ t.serialNumber := by
  rcases h with h | h
  · exact (congrArg Prod.snd h).ge
  · omega

/-- Every step keeps the invariant of the name store. -/
theorem Accounts.volumeStep {v w : LocalVolume} (hdense : E.sparse = false)
    (h : Accounts E.toEncoding extra v.holders v.ns) (hstep : VolumeStep E v w) :
    Accounts E.toEncoding extra w.holders w.ns ∧ Advances v.ns w.ns := by
  cases hstep with
  | link hidle hH hrun =>
      obtain ⟨⟨newRoot, hcommitted⟩, -⟩ := wp_of_run (h.multiLink_spec hdense hH _ _ _) hrun
      exact ⟨hcommitted.inv, .inr hcommitted.serialNumber⟩
  | linkFailed hH hrun =>
      have hkept := wp_of_run (h.multiLink_spec hdense hH _ _ _) hrun
      exact ⟨h.kept hkept, .inl (hkept.quiet.undisturbed E.toEncoding).pair⟩
  | serve hserved =>
      obtain ⟨ht, hpair, -⟩ := h.served hdense hserved
      exact ⟨ht, .inl hpair⟩
  | @cleanup _ r hrun =>
      have hspec := wp_of_run h.cleanup_spec hrun
      rcases r with (_ | _ | _ | _) | _
      · exact hspec.elim
      · exact hspec.elim
      · exact hspec.elim
      · exact hspec.elim
      · refine ⟨hspec.accounts, .inl ?_⟩
        rw [NameStore.pair, NameStore.pair, hspec.rootAddr, hspec.serialNumber]
  | checkpoint hidle => exact ⟨h, .inl rfl⟩
  | lock hcall hfree => exact ⟨h, .inl rfl⟩
  | getRoot hcall => exact ⟨h, .inl rfl⟩
  | getSerialNumber hcall => exact ⟨h, .inl rfl⟩
  | writeFile hcall => exact ⟨h, .inl rfl⟩
  | writeFileFailed hcall => exact ⟨h, .inl rfl⟩
  | rename hcall => exact ⟨h, .inl rfl⟩
  | renameFailed hcall => exact ⟨h, .inl rfl⟩
  | returned hcall => exact ⟨h, .inl rfl⟩

/-! ## The mutex of `save` -/

/-- Only the holder of `persistMtx` is inside `save`. -/
def Exclusive (v : LocalVolume) : Prop :=
  ∀ id call, v.calls id = some call → call.Holds → v.persistMtx = some id

theorem goOn_calls_self (v : LocalVolume) (id : ℕ) (call : Option SaveCall) :
    (v.goOn id call).calls id = call := Function.update_self ..

theorem goOn_calls_of_ne (v : LocalVolume) {id other : ℕ} (h : other ≠ id)
    (call : Option SaveCall) : (v.goOn id call).calls other = v.calls other :=
  Function.update_of_ne h ..

/-- The calls after one of them went on. -/
theorem forall_goOn {v : LocalVolume} {id : ℕ} {call : Option SaveCall}
    {P : ℕ → SaveCall → Prop} (hself : ∀ c, call = some c → P id c)
    (hothers : ∀ other c, other ≠ id → v.calls other = some c → P other c) :
    ∀ other c, (v.goOn id call).calls other = some c → P other c := by
  intro other c hc
  by_cases h : other = id
  · subst h
    rw [goOn_calls_self] at hc
    exact hself c hc
  · rw [goOn_calls_of_ne v h] at hc
    exact hothers other c h hc

/-- Besides a call that is inside `save` no other is. -/
theorem Exclusive.not_holds {v : LocalVolume} (h : Exclusive v) {id other : ℕ}
    {call call' : SaveCall} (hcall : v.calls id = some call) (hholds : call.Holds)
    (hne : other ≠ id) (hother : v.calls other = some call') : ¬ call'.Holds := by
  intro hholds'
  have hid := h id call hcall hholds
  rw [h other call' hother hholds'] at hid
  exact hne (Option.some.inj hid)

theorem Exclusive.volumeStep {v w : LocalVolume} (h : Exclusive v) (hstep : VolumeStep E v w) :
    Exclusive w := by
  -- a call that leaves the mutex as it is, and is inside only if it was before
  have hstays : ∀ {u : LocalVolume} {id : ℕ} {call : SaveCall} {next : Option SaveCall},
      v.calls id = some call → (∀ c, next = some c → c.Holds → call.Holds) → u.calls = v.calls →
        u.persistMtx = v.persistMtx → Exclusive (u.goOn id next) := by
    intro u id call next hcall hnext hcalls hmtx
    refine forall_goOn (fun c hc hholds => ?_) (fun other c _ hother hholds => ?_)
    · exact hmtx.trans (h id call hcall (hnext c hc hholds))
    · rw [hcalls] at hother
      exact hmtx.trans (h other c hother hholds)
  -- a call that goes out of `save`
  have hleaves : ∀ {u : LocalVolume} {id : ℕ} {call : SaveCall} {next : Option SaveCall},
      v.calls id = some call → call.Holds → (∀ c, next = some c → ¬ c.Holds) →
        u.calls = v.calls → Exclusive (u.goOn id next) := by
    intro u id call next hcall hholds hnext hcalls
    refine forall_goOn (fun c hc hin => absurd hin (hnext c hc)) (fun other c hne hother hin => ?_)
    rw [hcalls] at hother
    exact absurd hin (h.not_holds hcall hholds hne hother)
  cases hstep with
  | link hidle hH hrun =>
      refine forall_goOn (fun c hc hholds => ?_) (fun other c _ hother hholds => ?_)
      · cases hc
        exact hholds.elim
      · exact h other c hother hholds
  | checkpoint hidle =>
      refine forall_goOn (fun c hc hholds => ?_) (fun other c _ hother hholds => ?_)
      · cases hc
        exact hholds.elim
      · exact h other c hother hholds
  | lock hcall hfree =>
      refine forall_goOn (fun _ _ _ => rfl) (fun other c _ hother hholds => ?_)
      have hmtx := h other c hother hholds
      rw [hfree] at hmtx
      cases hmtx
  | linkFailed hH hrun => exact h
  | serve hserved => exact h
  | cleanup hrun => exact h
  | getRoot hcall => exact hstays hcall (fun _ _ _ => trivial) rfl rfl
  | getSerialNumber hcall => exact hstays hcall (fun _ _ _ => trivial) rfl rfl
  | writeFile hcall => exact hstays hcall (fun _ _ _ => trivial) rfl rfl
  | writeFileFailed hcall => exact hleaves hcall trivial (fun _ hc => by cases hc) rfl
  | rename hcall =>
      refine hleaves hcall trivial (fun c hc hholds => ?_) rfl
      cases hc
      exact hholds
  | renameFailed hcall => exact hleaves hcall trivial (fun _ hc => by cases hc) rfl
  | returned hcall => exact hstays hcall (fun _ hc => by cases hc) rfl rfl

end Grits
