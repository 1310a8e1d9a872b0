import Grits.Server.Modules

/-!
# Starting and stopping a server

`Start`, `Stop` and `Shutdown` of `internal/gritsd/server.go`, with what becomes of the modules.
The modules are those that `LoadModules` and `resolveModuleDependencies` leave in `s.Modules`;
they start in the order of `sortModulesByDependency`.
-/

namespace Grits

namespace ServerLifecycle

open DepthFirst

/-- A call of a module. -/
inductive Event (M : Type) where
  | started (m : M)
  | failedToStart (m : M)
  | stopped (m : M)
  deriving DecidableEq

/-- The module that was stopped. -/
def Event.stopped? {M : Type} : Event M → Option M
  | .stopped m => some m
  | _ => none

/-- What `Start` depends on. -/
structure Server (M : Type) extends ModuleMethods M where
  modules : List M
  /-- `module.Start` returns no error. -/
  starts : M → Bool
  debugServerLifecycle : Bool

/-- A server whose `Start` has returned. -/
structure Running (M : Type) where
  events : List (Event M)
  startupSuccess : Bool
  /-- `shutdownChan` is closed. -/
  shutdown : Bool

variable {M : Type}

/-- The loop of `Start` over the modules. -/
def startModules (starts : M → Bool) : List M → List (Event M) × Bool
  | [] => ([], true)
  | m :: rest =>
      if starts m then
        let (events, startupSuccess) := startModules starts rest
        (.started m :: events, startupSuccess)
      else ([.failedToStart m], false)

/-- `module.Stop`, in the reverse order; an error of it is only logged. -/
def stopModules (modules : List M) : List (Event M) := modules.reverse.map .stopped

/-- What `Start` defers: the modules are stopped inside of the test of the debug flag. -/
def Server.abort (s : Server M) (orderedModules : List M) : List (Event M) :=
  if s.debugServerLifecycle then stopModules orderedModules else []

/-- `Start`, from `sortModulesByDependency` on. -/
def Server.start [DecidableEq M] (s : Server M) : Option (Running M) := do
  let orderedModules ← s.sortModulesByDependency s.modules
  let (events, startupSuccess) := startModules s.starts orderedModules
  if startupSuccess then some ⟨events, true, false⟩
  else some ⟨events ++ s.abort orderedModules, false, false⟩

/-- `Stop` or `Shutdown`, and what waits for `shutdownChan` to be closed. -/
def Server.stop (s : Server M) (r : Running M) : Running M :=
  if r.shutdown then r
  else
    { r with
      shutdown := true
      events := if r.startupSuccess then r.events ++ stopModules s.modules else r.events }

/-- A server that is started, and stopped by a first call and others after it. -/
def Server.run [DecidableEq M] (s : Server M) (later : ℕ) : Option (List (Event M)) :=
  s.start.map fun r => (s.stop^[later + 1] r).events

/-- The modules are stopped in the reverse of the order in which they have started. -/
def Server.Orderly [DecidableEq M] (s : Server M) (later : ℕ) : Prop :=
  ∃ orderedModules events, s.sortModulesByDependency s.modules = some orderedModules ∧
    s.run later = some events ∧
    events.filterMap Event.stopped? = (orderedModules.takeWhile s.starts).reverse

/-! ## What is stopped -/

variable {s : Server M} {r : Running M} {starts : M → Bool} {modules : List M}

theorem stopped_stopModules (modules : List M) :
    (stopModules modules).filterMap Event.stopped? = modules.reverse := by
  rw [stopModules, List.filterMap_map]
  exact List.filterMap_some

theorem startModules_snd (starts : M → Bool) (modules : List M) :
    (startModules starts modules).2 = modules.all starts := by
  induction modules with
  | nil => rfl
  | cons m rest ih =>
      rw [startModules, List.all_cons]
      cases hm : starts m with
      | true => simpa using ih
      | false => simp

/-- Starting stops nothing. -/
theorem stopped_startModules (starts : M → Bool) (modules : List M) :
    (startModules starts modules).1.filterMap Event.stopped? = [] := by
  induction modules with
  | nil => rfl
  | cons m rest ih =>
      rw [startModules]
      cases hm : starts m with
      | true => simpa [Event.stopped?] using ih
      | false => simp [Event.stopped?]

/-- Only the first call does something. -/
theorem iterate_stop (later : ℕ) : s.stop^[later + 1] r = s.stop r := by
  have hstopped : s.stop (s.stop r) = s.stop r := by
    have hshutdown : (s.stop r).shutdown = true := by
      rw [Server.stop]
      split
      next h => exact h
      next => rfl
    rw [Server.stop, if_pos hshutdown]
  induction later with
  | zero => rfl
  | succ later ih =>
      rw [Function.iterate_succ_apply', ih, hstopped]

variable [DecidableEq M]

/-- What is stopped in a run. -/
theorem Server.stopped_run {orderedModules : List M}
    (h : s.sortModulesByDependency s.modules = some orderedModules) (later : ℕ) :
    ∃ events, s.run later = some events ∧
      events.filterMap Event.stopped? =
        if orderedModules.all s.starts then s.modules.reverse
        else if s.debugServerLifecycle then orderedModules.reverse
        else [] := by
  have hsnd := startModules_snd s.starts orderedModules
  have hfst := stopped_startModules s.starts orderedModules
  rw [Server.run, Server.start, h]
  cases hall : orderedModules.all s.starts with
  | true =>
      rw [hall] at hsnd
      refine ⟨_, by simp [hsnd, iterate_stop]; rfl, ?_⟩
      simp [Server.stop, hfst, stopped_stopModules]
  | false =>
      rw [hall] at hsnd
      refine ⟨_, by simp [hsnd, iterate_stop]; rfl, ?_⟩
      cases hdebug : s.debugServerLifecycle with
      | true => simp [Server.stop, Server.abort, hfst, stopped_stopModules, hdebug]
      | false => simp [Server.stop, Server.abort, hfst, hdebug]

/-! ## When that is the order of the starts -/

theorem takeWhile_eq_self_iff : modules.takeWhile starts = modules ↔ modules.all starts := by
  rw [List.takeWhile_eq_self_iff, List.all_eq_true]

/-- A server is orderly exactly if all modules start and are configured in the order of their
dependencies, or the first one fails to start and nothing is logged. -/
theorem orderly_iff (s : Server M) (hnodup : s.modules.Nodup) (later : ℕ) :
    s.Orderly later ↔
      (∀ m ∈ s.modules, s.starts m) ∧ InOrder (s.dependencies s.modules) s.modules ∨
      s.debugServerLifecycle = false ∧
        ∃ first rest, s.sortModulesByDependency s.modules = some (first :: rest) ∧
          s.starts first = false := by
  obtain ⟨orderedModules, hsorted, -, hperm, -⟩ :=
    ModuleMethods.sortModulesByDependency_topological s.toModuleMethods s.modules
  have hmem : ∀ m, m ∈ orderedModules ↔ m ∈ s.modules := fun m => (hperm hnodup).mem_iff
  obtain ⟨events, hrun, hstopped⟩ := s.stopped_run hsorted later
  have horderly : s.Orderly later ↔
      events.filterMap Event.stopped? = (orderedModules.takeWhile s.starts).reverse := by
    constructor
    · rintro ⟨orderedModules', events', hsorted', hrun', heq⟩
      rw [hsorted] at hsorted'
      rw [hrun] at hrun'
      cases hsorted'
      cases hrun'
      exact heq
    · exact fun heq => ⟨orderedModules, events, hsorted, hrun, heq⟩
  rw [horderly, hstopped]
  by_cases hall : orderedModules.all s.starts
  · -- every module starts: the stops follow `s.modules`
    have hstarts : ∀ m ∈ s.modules, s.starts m :=
      fun m hm => List.all_eq_true.mp hall m ((hmem m).mpr hm)
    rw [if_pos hall, takeWhile_eq_self_iff.mpr hall, List.reverse_inj,
      ← sort_eq_self_iff hnodup]
    constructor
    · intro heq
      refine .inl ⟨hstarts, ?_⟩
      show s.sortModulesByDependency s.modules = _
      rw [hsorted, heq]
    · rintro (⟨-, hself⟩ | ⟨-, first, rest, hfirst, hfails⟩)
      · have hsame : some orderedModules = some s.modules := hsorted.symm.trans hself
        exact (Option.some.inj hsame).symm
      · rw [hsorted, Option.some.injEq] at hfirst
        have hstart := List.all_eq_true.mp hall first (by rw [hfirst]; exact List.mem_cons_self)
        rw [hfails] at hstart
        cases hstart
  · rw [if_neg hall]
    have hnot : ¬ ∀ m ∈ s.modules, s.starts m := by
      intro hstarts
      exact hall (List.all_eq_true.mpr fun m hm => hstarts m ((hmem m).mp hm))
    cases hdebug : s.debugServerLifecycle with
    | true =>
        -- all modules are stopped, those that have not started with them
        refine iff_of_false ?_ ?_
        · rw [if_pos rfl, List.reverse_inj]
          exact fun heq => hall (takeWhile_eq_self_iff.mp heq.symm)
        · rintro (⟨hstarts, -⟩ | ⟨hfalse, -⟩)
          · exact hnot hstarts
          · cases hfalse
    | false =>
        -- no module is stopped
        rw [if_neg (by simp), eq_comm, List.reverse_eq_nil_iff]
        constructor
        · intro hnone
          refine .inr ⟨rfl, ?_⟩
          cases orderedModules with
          | nil => exact absurd List.all_nil hall
          | cons first rest =>
              refine ⟨first, rest, hsorted, ?_⟩
              by_contra hstart
              rw [Bool.not_eq_false] at hstart
              rw [List.takeWhile_cons_of_pos hstart] at hnone
              cases hnone
        · rintro (⟨hstarts, -⟩ | ⟨-, first, rest, hfirst, hfails⟩)
          · exact absurd hstarts hnot
          · rw [hsorted, Option.some.injEq] at hfirst
            subst hfirst
            exact List.takeWhile_cons_of_neg (by simp [hfails])

/-! ## A server whose modules are configured the other way -/

/-- All modules start; each is configured before those it depends on. -/
def mirrorServer : Server ServerModule :=
  { serverModules with
    modules := mirrorFirst
    starts := fun _ => true
    debugServerLifecycle := false }

/-- A server with one volume. -/
def volumeServer : Server ServerModule :=
  { serverModules with
    modules := [.volume, .startup]
    starts := fun _ => true
    debugServerLifecycle := true }

theorem orderly_iff_volumeServer : volumeServer.Orderly 0 := by
  refine (orderly_iff volumeServer (by decide) 0).mpr (.inl ⟨fun _ _ => rfl, ?_⟩)
  rw [← sort_eq_self_iff (by decide)]
  decide

/-- The HTTP module does not start. -/
def failingServer : Server ServerModule := { mirrorServer with starts := fun m => m ≠ .http }

/-- The volume is stopped before the modules that use it, and after a failed start nothing is
stopped. -/
theorem orderly_fails : ¬ mirrorServer.Orderly 0 ∧ ¬ failingServer.Orderly 0 := by
  constructor
  · rintro ⟨orderedModules, events, hsorted, hrun, heq⟩
    have hsorted' : mirrorServer.sortModulesByDependency mirrorServer.modules =
        some [.volume, .startup, .http, .mirror] := by decide
    have hrun' : (mirrorServer.run 0).map (List.filterMap Event.stopped?) =
        some [.volume, .startup, .http, .mirror] := by decide
    rw [hsorted'] at hsorted
    rw [hrun] at hrun'
    cases hsorted
    rw [Option.map_some, heq] at hrun'
    exact absurd hrun' (by decide)
  · rintro ⟨orderedModules, events, hsorted, hrun, heq⟩
    have hsorted' : failingServer.sortModulesByDependency failingServer.modules =
        some [.volume, .startup, .http, .mirror] := by decide
    have hrun' : (failingServer.run 0).map (List.filterMap Event.stopped?) = some [] := by decide
    rw [hsorted'] at hsorted
    rw [hrun] at hrun'
    cases hsorted
    rw [Option.map_some, heq] at hrun'
    exact absurd hrun' (by decide)

end ServerLifecycle

end Grits
