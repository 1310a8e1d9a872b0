import Grits.BlobCache.Invariant
import Grits.Library.SlashPath
import Mathlib.Logic.Relation

/-!
# What a waiting `Get` comes to

A `Get` that waited for a fetch goes on with the error of the fetch, or calls `Get` again
while it has the mutex.  The first is all that can happen exactly while nobody waits for
a fetch that succeeds.
-/

namespace Grits

namespace BlobGet

open Runs Relation

variable {Addr File Err : Type} [DecidableEq Addr] [DecidableEq File]

variable {B : Blobs Addr File} {limits : Limits} {s t : Cache Addr File Err}
  {past : List (Cache Addr File Err)}

/-! ## The law -/

/-- The caller has got one reference of the file, or none with an error. -/
def Cache.OwnReference (s : Cache Addr File Err) (id : ℕ) : Result Addr File Err → Prop
  | .file file => ∀ other, s.refs other (.call id) = if other = file then 1 else 0
  | .failedToFetch _ _ => ∀ other, s.refs other (.call id) = 0

/-- What a call that waited for a fetch should return. -/
def Agrees (B : Blobs Addr File) (addr : Addr) :
    Result Addr File Err → Result Addr File Err → Prop
  | .file _, result => ∃ file, result = .file file ∧ B.getAddress file = addr
  | .failedToFetch addr' err, result => result = .failedToFetch addr' err

/-- The call can run to completion, with what the fetch ended with. -/
def Completes (B : Blobs Addr File) (limits : Limits) (s : Cache Addr File Err) (id : ℕ)
    (addr : Addr) (outcome : Result Addr File Err) : Prop :=
  ∃ t result, ReflTransGen (Step B limits) s t ∧ t.calls id = some (.returned addr result) ∧
    Agrees B addr outcome result ∧ t.OwnReference id result

/-- What `Get` is for, in one state of a run. -/
structure Law (B : Blobs Addr File) (limits : Limits) (s : Cache Addr File Err) : Prop where
  noSelfLock : ∀ id call, s.calls id = some call → call.acquiring = true → s.mutex ≠ some id
  singleFlight : ∀ id other call call' addr, s.calls id = some call → s.calls other = some call' →
    call.fetches = some addr → call'.fetches = some addr → id = other
  completes : ∀ id call addr req outcome, s.calls id = some call →
    call.request = some (addr, req) → s.outcome req = some outcome →
    Completes B limits s id addr outcome
  returns : ∀ id addr result, s.calls id = some (.returned addr result) →
    s.OwnReference id result ∧ ∀ file, result = .file file → B.getAddress file = addr

/-- The step does not let a fetch succeed while somebody waits for it, nor somebody wait
for a fetch that has succeeded. -/
structure Meets (s t : Cache Addr File Err) : Prop where
  succeed : ∀ req addr file, s.calls req = some (.fetching addr) →
    t.calls req = some (.fetched addr file) → ∀ id addr', s.calls id ≠ some (.waiting addr' req)
  wait : ∀ id req addr, s.calls id = some (.locked addr) →
    t.calls id = some (.waiting addr req) → ∀ file, s.outcome req ≠ some (.file file)

/-- A step that meets the condition. -/
def MeetingStep (B : Blobs Addr File) (limits : Limits) (s t : Cache Addr File Err) : Prop :=
  Step B limits s t ∧ Meets s t

/-! ## Who waits for a fetch that has succeeded -/

/-- The call has waited for a fetch that succeeded. -/
def Doomed (s : Cache Addr File Err) (id : ℕ) : Prop :=
  ∃ addr req file, (s.calls id).bind Call.request = some (addr, req) ∧
    s.outcome req = some (.file file)

/-- Only a call that has looked the blob up starts to wait. -/
theorem Step.request_cases (hstep : Step B limits s t) {id req : ℕ} {addr : Addr}
    (h : (t.calls id).bind Call.request = some (addr, req)) :
    (s.calls id).bind Call.request = some (addr, req) ∨
      s.calls id = some (.locked addr) ∧ t.calls id = some (.waiting addr req) := by
  cases hstep with
  | @wait id' req' addr' hcall hentry hreq =>
      rcases goOn_bind h with ⟨rfl, hself⟩ | ⟨-, hother⟩
      · cases hself
        exact .inr ⟨hcall, goOn_calls_self ..⟩
      · exact .inl hother
  | @finish id' addr' result hcall hfree =>
      rcases goOn_bind h with ⟨rfl, hself⟩ | ⟨-, hother⟩
      · cases hself
      · rw [broadcast_calls, bind_wake_request] at hother
        exact .inl hother
  | resume hcall | retry hcall =>
      rcases goOn_bind h with ⟨rfl, hself⟩ | ⟨-, hother⟩
      · rw [hcall]
        exact .inl hself
      · exact .inl hother
  | cleanup | collect | release | cleaned => exact .inl h
  | evict =>
      rw [(evict_cleaned ..).calls] at h
      exact .inl h
  | _ =>
      rcases goOn_bind h with ⟨rfl, hself⟩ | ⟨-, hother⟩
      · cases hself
      · exact .inl hother

omit [DecidableEq Addr] in
theorem Inv.outcome_of_call (h : Inv B s) {req : ℕ} {call : Call Addr File Err}
    {result : Result Addr File Err} (hcall : s.calls req = some call)
    (houtcome : call.outcome = some result) : s.outcome req = some result := by
  rw [outcome_of_no_result, hcall]
  · exact houtcome
  · rw [Option.eq_none_iff_forall_ne_some]
    intro result' hresult
    obtain ⟨addr, hdone⟩ := (h.fits req).done result' hresult
    rcases hdone with hdone | hdone
    · rw [hcall, Option.some.injEq] at hdone
      subst hdone
      cases houtcome
    · rw [hcall, Option.some.injEq] at hdone
      subst hdone
      cases houtcome

omit [DecidableEq File] in
/-- The update of the request of `id` says of the other requests what was said before. -/
theorem outcome_finish {id req : ℕ} {addr : Addr} {result : Result Addr File Err}
    (hreq : req ≠ id) : (({ s with
      mutex := some id
      results := Function.update s.results id (some result)
      inFlight := Function.update s.inFlight addr none }.broadcast id).goOn id
        (.returning addr result)).outcome req = s.outcome req := by
  rw [Cache.outcome, Cache.outcome, goOn_calls_of_ne _ hreq, goOn_results, broadcast_results,
    broadcast_calls]
  simp only [Function.update_of_ne hreq]
  cases s.calls req with
  | none => rfl
  | some call => simp

/-- A fetch comes to a file in one step, from `fetchBlob`. -/
theorem Inv.outcome_cases (h : Inv B s) (hstep : Step B limits s t) {req : ℕ} {file : File}
    (houtcome : t.outcome req = some (.file file)) : s.outcome req = some (.file file) ∨
      ∃ addr, s.calls req = some (.fetching addr) ∧
        t = ((s.take file (.call req)).take file .cache).goOn req (.fetched addr file) := by
  cases hstep with
  | @fetchDone id addr file' hcall haddr =>
      rcases outcome_goOn_cases houtcome with hold | ⟨rfl, hself⟩
      · exact .inl hold
      · cases hself
        exact .inr ⟨addr, hcall, rfl⟩
  | store hcall hfree =>
      rcases outcome_goOn_cases houtcome with hold | ⟨rfl, hself⟩
      · exact .inl hold
      · cases hself
        exact .inl (h.outcome_of_call hcall rfl)
  | @finish id addr result hcall hfree =>
      by_cases hreq : req = id
      · subst hreq
        have hnew : some result = some (.file file) := by
          rw [← houtcome]
          exact (outcome_of_result (Function.update_self ..)).symm
        cases hnew
        exact .inl (h.outcome_of_call hcall rfl)
      · rw [outcome_finish hreq] at houtcome
        exact .inl houtcome
  | cleanup | collect | release | cleaned => exact .inl houtcome
  | evict =>
      rw [Cache.outcome, (evict_cleaned ..).calls, (evict_cleaned ..).results] at houtcome
      exact .inl houtcome
  | _ =>
      rcases outcome_goOn_cases houtcome with hold | ⟨rfl, hself⟩
      · exact .inl hold
      · cases hself

/-- How a fetch ended does not change. -/
theorem Inv.outcome_step (h : Inv B s) (hstep : Step B limits s t) {req : ℕ}
    {result : Result Addr File Err} (houtcome : s.outcome req = some result) :
    t.outcome req = some result := by
  cases hstep with
  | call hidle =>
      refine outcome_goOn houtcome fun hreq hnone => ?_
      rw [outcome_of_no_result hnone, hreq, hidle] at houtcome
      cases houtcome
  | store hcall hfree =>
      refine outcome_goOn houtcome fun hreq hnone => ?_
      have hnone' : s.results req = none := hnone
      rw [outcome_of_no_result hnone', hreq, hcall] at houtcome
      exact houtcome
  | @finish id addr result' hcall hfree =>
      by_cases hreq : req = id
      · subst hreq
        rw [h.outcome_of_call hcall rfl] at houtcome
        rw [← houtcome]
        exact outcome_of_result (Function.update_self ..)
      · rw [outcome_finish hreq]
        exact houtcome
  | cleanup | collect | release | cleaned => exact houtcome
  | evict =>
      rw [Cache.outcome, (evict_cleaned ..).calls, (evict_cleaned ..).results]
      exact houtcome
  | hit hcall | readFile hcall | wait hcall | fetch hcall | lock hcall | fetchDone hcall
    | fetchFailed hcall | resume hcall | fail hcall | retry hcall | lockRetry hcall
    | unlock hcall =>
      refine outcome_goOn houtcome fun hreq hnone => ?_
      have hnone' : s.results req = none := hnone
      rw [outcome_of_no_result hnone', hreq, hcall] at houtcome
      cases houtcome

/-! ## Waiting for a fetch that has succeeded is for ever -/

omit [DecidableEq Addr] in
/-- A call that has been woken has the outcome of the fetch in the request. -/
theorem Inv.waiting_or_result (h : Inv B s) {id req : ℕ} {addr : Addr}
    (hrequest : (s.calls id).bind Call.request = some (addr, req)) :
    s.calls id = some (.waiting addr req) ∨ ∃ result, s.results req = some result ∧
      s.outcome req = some result := by
  rcases (h.fits id).woken addr req hrequest with hwaiting | ⟨result, hresult⟩
  · exact .inl hwaiting
  · exact .inr ⟨result, hresult, outcome_of_result hresult⟩

/-- A call that has waited for a fetch goes on to return the error, or is in the `Get` that
it calls itself. -/
theorem Step.request_step (hstep : Step B limits s t) {id req : ℕ} {addr : Addr}
    (h : (s.calls id).bind Call.request = some (addr, req)) :
    (t.calls id).bind Call.request = some (addr, req) ∨
      (∃ addr' err, s.results req = some (.failedToFetch addr' err)) ∨
      s.calls id = some (.retrying addr req) ∧ s.mutex = none := by
  cases hstep with
  | call hidle =>
      refine .inl (bind_goOn h fun hid => ?_)
      rw [hid, hidle] at h
      cases h
  | resume hcall | retry hcall =>
      refine .inl (bind_goOn h fun hid => ?_)
      rw [hid, hcall] at h
      exact h
  | @fail id' req' addr' addr'' err hcall herr =>
      by_cases hid : id = id'
      · rw [hid, hcall] at h
        cases h
        exact .inr (.inl ⟨addr'', err, herr⟩)
      · exact .inl (bind_goOn h fun hid' => absurd hid' hid)
  | @lockRetry id' req' addr' hcall hfree =>
      by_cases hid : id = id'
      · rw [hid, hcall] at h
        cases h
        exact .inr (.inr ⟨hid ▸ hcall, hfree⟩)
      · exact .inl (bind_goOn h fun hid' => absurd hid' hid)
  | @finish id' addr' result hcall hfree =>
      refine .inl (bind_goOn ?_ fun hid => ?_)
      · rw [broadcast_calls, bind_wake_request]
        exact h
      · rw [hid, hcall] at h
        cases h
  | cleanup | collect | release | cleaned => exact .inl h
  | evict =>
      rw [(evict_cleaned ..).calls]
      exact .inl h
  | lock hcall | hit hcall | readFile hcall | wait hcall | fetch hcall | fetchDone hcall
    | fetchFailed hcall | store hcall | unlock hcall =>
      refine .inl (bind_goOn h fun hid => ?_)
      rw [hid, hcall] at h
      cases h

theorem Inv.doomed_step (h : Inv B s) (hstep : Step B limits s t) {id : ℕ}
    (hdoomed : Doomed s id) : Doomed t id := by
  obtain ⟨addr, req, file, hrequest, houtcome⟩ := hdoomed
  refine ⟨addr, req, file, ?_, h.outcome_step hstep houtcome⟩
  rcases hstep.request_step hrequest with hnew | ⟨addr', err, herr⟩ | ⟨hcall, hfree⟩
  · exact hnew
  · rw [outcome_of_result herr] at houtcome
    cases houtcome
  · -- it has the mutex itself
    have hmutex := (h.fits id).mutex
    rw [hcall] at hmutex
    have hself : s.mutex = some id := hmutex.mp rfl
    rw [hfree] at hself
    cases hself

/-- Somebody comes to wait for a fetch that has succeeded only by a step that does not
meet the condition. -/
theorem Inv.doomed_iff (h : Inv B s) (hstep : Step B limits s t) (hnot : ∀ id, ¬ Doomed s id) :
    (∀ id, ¬ Doomed t id) ↔ Meets s t := by
  constructor
  · intro hnot'
    constructor
    · intro req addr file hfetching hfetched id addr' hwaiting
      have hrequest : (s.calls id).bind Call.request = some (addr', req) := by
        rw [hwaiting]
        rfl
      have hnone : ∀ result, s.outcome req ≠ some result := by
        intro result houtcome
        cases hresult : s.results req with
        | none =>
            rw [outcome_of_no_result hresult, hfetching] at houtcome
            cases houtcome
        | some result' =>
            obtain ⟨addr'', hdone⟩ := (h.fits req).done result' hresult
            rw [hfetching] at hdone
            simp at hdone
      rcases hstep.request_step hrequest with hnew | ⟨addr'', err, herr⟩ | ⟨hcall, -⟩
      · exact hnot' id ⟨addr', req, file, hnew, (h.step hstep).outcome_of_call hfetched rfl⟩
      · exact hnone _ (outcome_of_result herr)
      · rw [hwaiting] at hcall
        cases hcall
    · intro id req addr hlocked hwaiting file houtcome
      refine hnot' id ⟨addr, req, file, ?_, h.outcome_step hstep houtcome⟩
      rw [hwaiting]
      rfl
  · rintro hmeets id ⟨addr, req, file, hrequest, houtcome⟩
    rcases h.outcome_cases hstep houtcome with hold | ⟨addr', hfetching, rfl⟩
    · rcases hstep.request_cases hrequest with hrequest' | ⟨hlocked, hwaiting⟩
      · exact hnot id ⟨addr, req, file, hrequest', hold⟩
      · exact hmeets.wait id req addr hlocked hwaiting file hold
    · rcases hstep.request_cases hrequest with hrequest' | ⟨hlocked, hwaiting⟩
      · rcases h.waiting_or_result hrequest' with hwaiting | ⟨result, hresult, -⟩
        · exact hmeets.succeed req addr' file hfetching (goOn_calls_self ..) id addr hwaiting
        · obtain ⟨addr'', hdone⟩ := (h.fits req).done result hresult
          rw [hfetching] at hdone
          simp at hdone
      · -- the step is that of the fetch
        have hne : id ≠ req := by
          rintro rfl
          rw [hfetching] at hlocked
          cases hlocked
        rw [goOn_calls_of_ne _ hne, take_calls, take_calls, hlocked] at hwaiting
        cases hwaiting

/-! ## What a call can come to -/

theorem Inv.reach (h : Inv B s) (hreach : ReflTransGen (Step B limits) s t) : Inv B t := by
  induction hreach with
  | refl => exact h
  | tail _ hstep ih => exact ih.step hstep

theorem Inv.doomed_reach (h : Inv B s) (hreach : ReflTransGen (Step B limits) s t) {id : ℕ}
    (hdoomed : Doomed s id) : Doomed t id := by
  induction hreach with
  | refl => exact hdoomed
  | tail hreach hstep ih => exact (h.reach hreach).doomed_step hstep ih

omit [DecidableEq Addr] in
/-- A call that returns has what it returns a reference of. -/
theorem Inv.returned (h : Inv B s) {id : ℕ} {addr : Addr} {result : Result Addr File Err}
    (hcall : s.calls id = some (.returned addr result)) :
    s.OwnReference id result ∧ ∀ file, result = .file file → B.getAddress file = addr := by
  have hid := h.fits id
  rw [hcall] at hid
  cases result with
  | file file =>
      constructor
      · intro other
        have hrefs := hid.refs other
        simpa [eq_comm] using hrefs
      · rintro _ ⟨⟩
        have haddress := hid.address file rfl
        simpa using haddress.symm
  | failedToFetch addr' err =>
      constructor
      · intro other
        simpa using hid.refs other
      · rintro _ ⟨⟩

/-- A state in which the mutex is free, and nothing else has changed for the calls that did
not have it. -/
structure Freed (s t : Cache Addr File Err) : Prop where
  mutex : t.mutex = none
  results : t.results = s.results
  calls : ∀ id call, s.calls id = some call → call.holding = false → t.calls id = some call

omit [DecidableEq Addr] [DecidableEq File] in
theorem freed_goOn {id : ℕ} {old call : Call Addr File Err} (hmutex : t.mutex = none)
    (hresults : t.results = s.results) (hcalls : t.calls = s.calls)
    (hold : s.calls id = some old) (hholding : old.holding = true) : Freed s (t.goOn id call) where
  mutex := hmutex
  results := hresults
  calls := by
    intro other call' hcall' hnot
    have hne : other ≠ id := by
      rintro rfl
      rw [hold, Option.some.injEq] at hcall'
      rw [← hcall', hholding] at hnot
      cases hnot
    rw [goOn_calls_of_ne t hne, hcalls, hcall']

omit [DecidableEq Addr] [DecidableEq File] in
theorem Freed.of_goOn {id : ℕ} {old call : Call Addr File Err} {u : Cache Addr File Err}
    (h : Freed (t.goOn id call) u) (hresults : t.results = s.results) (hcalls : t.calls = s.calls)
    (hold : s.calls id = some old) (hholding : old.holding = true) : Freed s u where
  mutex := h.mutex
  results := h.results.trans hresults
  calls := by
    intro other call' hcall' hnot
    have hne : other ≠ id := by
      rintro rfl
      rw [hold, Option.some.injEq] at hcall'
      rw [← hcall', hholding] at hnot
      cases hnot
    refine h.calls other call' ?_ hnot
    rw [goOn_calls_of_ne t hne, hcalls, hcall']

theorem freed_returning (B : Blobs Addr File) (limits : Limits) {id : ℕ} {addr : Addr}
    {result : Result Addr File Err}
    (hcall : s.calls id = some (.returning addr result)) :
    ∃ t, ReflTransGen (Step B limits) s t ∧ Freed s t ∧ t.calls id = some (.returned addr result) :=
  ⟨_, .single (.unlock hcall), freed_goOn rfl rfl rfl hcall rfl, goOn_calls_self ..⟩

/-- Unless somebody waits for a fetch that has succeeded, the call that has the mutex
gives it back. -/
theorem Inv.free (h : Inv B s) (hnot : ∀ id, ¬ Doomed s id) :
    ∃ t, ReflTransGen (Step B limits) s t ∧ Freed s t := by
  cases hmutex : s.mutex with
  | none => exact ⟨s, .refl, hmutex, rfl, fun _ _ hcall _ => hcall⟩
  | some id =>
      have hholding := (h.fits id).mutex.mpr hmutex
      cases hcall : s.calls id with
      | none =>
          rw [hcall] at hholding
          cases hholding
      | some call =>
          rw [hcall] at hholding
          cases call with
          | locked addr =>
              cases hentry : s.cachedBlobs addr with
              | some file =>
                  obtain ⟨t, hreach, hfreed, -⟩ := freed_returning B limits
                    (goOn_calls_self (s.take file (.call id)) id (.returning addr (.file file)))
                  exact ⟨t, .head (.hit hcall hentry) hreach, hfreed.of_goOn rfl rfl hcall rfl⟩
              | none =>
                  cases hreq : s.inFlight addr with
                  | some req =>
                      exact ⟨_, .single (.wait hcall hentry hreq), freed_goOn rfl rfl rfl hcall rfl⟩
                  | none =>
                      exact ⟨_, .single (.fetch hcall hentry hreq),
                        freed_goOn rfl rfl rfl hcall rfl⟩
          | resumed addr req =>
              have hrequest : (s.calls id).bind Call.request = some (addr, req) := by
                rw [hcall]
                rfl
              rcases h.waiting_or_result hrequest with hwaiting | ⟨result, hresult, houtcome⟩
              · rw [hcall] at hwaiting
                cases hwaiting
              · cases result with
                | file file => exact absurd ⟨addr, req, file, hrequest, houtcome⟩ (hnot id)
                | failedToFetch addr' err =>
                    obtain ⟨t, hreach, hfreed, -⟩ := freed_returning B limits
                      (goOn_calls_self s id (.returning addr (.failedToFetch addr' err)))
                    exact ⟨t, .head (.fail hcall hresult) hreach, hfreed.of_goOn rfl rfl hcall rfl⟩
          | retrying addr req =>
              have hrequest : (s.calls id).bind Call.request = some (addr, req) := by
                rw [hcall]
                rfl
              have hid := h.fits id
              rw [hcall] at hid
              obtain ⟨file, hfile⟩ := hid.retries addr req rfl
              exact absurd ⟨addr, req, file, hrequest, outcome_of_result hfile⟩ (hnot id)
          | returning addr result =>
              obtain ⟨t, hreach, hfreed, -⟩ := freed_returning B limits hcall
              exact ⟨t, hreach, hfreed⟩
          | _ => cases hholding

/-- A call that is back from `Wait` after a fetch that failed returns the error. -/
theorem returns_resumed (B : Blobs Addr File) (limits : Limits) {id req : ℕ} {addr addr' : Addr} {err : Err}
    (hcall : s.calls id = some (.resumed addr req))
    (herr : s.results req = some (.failedToFetch addr' err)) :
    ∃ t, ReflTransGen (Step B limits) s t ∧
      t.calls id = some (.returned addr (.failedToFetch addr' err)) := by
  obtain ⟨t, hreach, -, hreturned⟩ := freed_returning B limits
    (goOn_calls_self s id (.returning addr (.failedToFetch addr' err)))
  exact ⟨t, .head (.fail hcall herr) hreach, hreturned⟩

theorem returns_woken {id req : ℕ} {addr addr' : Addr} {err : Err}
    (hcall : s.calls id = some (.woken addr req)) (hfree : s.mutex = none)
    (herr : s.results req = some (.failedToFetch addr' err)) :
    ∃ t, ReflTransGen (Step B limits) s t ∧
      t.calls id = some (.returned addr (.failedToFetch addr' err)) := by
  have hresumed := goOn_calls_self { s with mutex := some id } id (.resumed addr req)
  obtain ⟨t, hreach, hreturned⟩ := returns_resumed B limits hresumed herr
  exact ⟨t, .head (.resume hcall hfree) hreach, hreturned⟩

omit [DecidableEq File] in
theorem finish_wakes {id req : ℕ} {addr addr' : Addr} {result : Result Addr File Err}
    (hne : id ≠ req) (hwaiting : s.calls id = some (.waiting addr' req)) : (({ s with
      mutex := some req
      results := Function.update s.results req (some result)
      inFlight := Function.update s.inFlight addr none }.broadcast req).goOn req
        (.returning addr result)).calls id = some (.woken addr' req) := by
  rw [goOn_calls_of_ne _ hne, broadcast_calls]
  simp [hwaiting, Call.wake]

/-- The call that has fetched updates the request, wakes the others and gives the mutex
back. -/
theorem finish_unlock {req : ℕ} {addr : Addr} {result : Result Addr File Err}
    (hended : s.calls req = some (.ended addr result)) (hfree : s.mutex = none) :
    ∃ t, ReflTransGen (Step B limits) s t ∧ t.mutex = none ∧ t.results req = some result ∧
      ∀ id addr', s.calls id = some (.waiting addr' req) →
        t.calls id = some (.woken addr' req) := by
  have hunlock : Step B limits _ _ := Step.unlock (goOn_calls_self ({ s with
    mutex := some req
    results := Function.update s.results req (some result)
    inFlight := Function.update s.inFlight addr none }.broadcast req) req (.returning addr result))
  refine ⟨_, .head (.finish hended hfree) (.single hunlock), rfl, Function.update_self .., ?_⟩
  intro id addr' hwaiting
  have hne : id ≠ req := by
    rintro rfl
    rw [hwaiting] at hended
    cases hended
  rw [goOn_calls_of_ne _ hne]
  exact finish_wakes hne hwaiting

omit [DecidableEq Addr] in
/-- A fetch that somebody waits for, and that has failed, has not been put in the request. -/
theorem Inv.ended_of_waiting (h : Inv B s) {id req : ℕ} {addr addr' : Addr} {err : Err}
    (hcall : s.calls id = some (.waiting addr req))
    (houtcome : s.outcome req = some (.failedToFetch addr' err)) :
    s.calls req = some (.ended addr (.failedToFetch addr' err)) := by
  have hfetches := ((h.fits req).fetch addr).mp ((h.fits id).waits addr req hcall)
  cases hreq : s.calls req with
  | none =>
      rw [hreq] at hfetches
      cases hfetches
  | some call =>
      rw [hreq] at hfetches
      cases call with
      | fetching addr'' =>
          cases hresult : s.results req with
          | none =>
              rw [outcome_of_no_result hresult, hreq] at houtcome
              cases houtcome
          | some result =>
              obtain ⟨last, hdone⟩ := (h.fits req).done result hresult
              rw [hreq] at hdone
              simp at hdone
      | fetched addr'' file =>
          rw [h.outcome_of_call hreq rfl] at houtcome
          cases houtcome
      | ended addr'' result =>
          rw [h.outcome_of_call hreq rfl] at houtcome
          cases hfetches
          cases houtcome
          rfl
      | _ => cases hfetches

/-- Unless somebody waits for a fetch that has succeeded, each call that has waited for a
fetch can return its error. -/
theorem Inv.completes (h : Inv B s) (hnot : ∀ id, ¬ Doomed s id) {id req : ℕ} {addr : Addr}
    {outcome : Result Addr File Err} (hrequest : (s.calls id).bind Call.request = some (addr, req))
    (houtcome : s.outcome req = some outcome) : Completes B limits s id addr outcome := by
  cases outcome with
  | file file => exact absurd ⟨addr, req, file, hrequest, houtcome⟩ (hnot id)
  | failedToFetch addr' err =>
      obtain ⟨t, hreach, hreturned⟩ : ∃ t, ReflTransGen (Step B limits) s t ∧
          t.calls id = some (.returned addr (.failedToFetch addr' err)) := by
        obtain ⟨u, hreach, hfreed⟩ := h.free hnot
        cases hcall : s.calls id with
        | none =>
            rw [hcall] at hrequest
            cases hrequest
        | some call =>
            rw [hcall] at hrequest
            have hid := h.fits id
            rw [hcall] at hid
            cases call with
            | waiting addr'' req' =>
                cases hrequest
                have hended := hfreed.calls req _ (h.ended_of_waiting hcall houtcome) rfl
                obtain ⟨v, hreach', hmutex, hresult, hwakes⟩ := finish_unlock hended hfreed.mutex
                obtain ⟨t, hreach'', hreturned⟩ :=
                  returns_woken (hwakes id addr (hfreed.calls id _ hcall rfl)) hmutex hresult
                exact ⟨t, hreach.trans (hreach'.trans hreach''), hreturned⟩
            | woken addr'' req' =>
                cases hrequest
                obtain ⟨result, hresult⟩ := (hid.woken addr req rfl).resolve_left nofun
                rw [outcome_of_result hresult] at houtcome
                cases houtcome
                obtain ⟨t, hreach', hreturned⟩ :=
                  returns_woken (hfreed.calls id _ hcall rfl) hfreed.mutex (hfreed.results ▸ hresult)
                exact ⟨t, hreach.trans hreach', hreturned⟩
            | resumed addr'' req' =>
                cases hrequest
                obtain ⟨result, hresult⟩ := (hid.woken addr req rfl).resolve_left nofun
                rw [outcome_of_result hresult] at houtcome
                cases houtcome
                exact returns_resumed B limits hcall hresult
            | retrying addr'' req' =>
                cases hrequest
                obtain ⟨file, hfile⟩ := hid.retries addr req rfl
                rw [outcome_of_result hfile] at houtcome
                cases houtcome
            | _ => cases hrequest
      exact ⟨t, _, hreach, hreturned, rfl, ((h.reach hreach).returned hreturned).1⟩

/-- A call that waits for a fetch that has succeeded never returns. -/
theorem Inv.not_completes (h : Inv B s) {id : ℕ} (hdoomed : Doomed s id) (addr : Addr)
    (outcome : Result Addr File Err) : ¬ Completes B limits s id addr outcome := by
  rintro ⟨t, result, hreach, hreturned, -⟩
  obtain ⟨addr', req, file, hrequest, -⟩ := h.doomed_reach hreach hdoomed
  rw [hreturned] at hrequest
  cases hrequest

/-- The law holds in a state exactly when nobody waits for a fetch that has succeeded. -/
theorem Inv.law_iff (h : Inv B s) : Law B limits s ↔ ∀ id, ¬ Doomed s id := by
  constructor
  · intro hlaw id hdoomed
    have hdoomed' := hdoomed
    obtain ⟨addr, req, file, hrequest, houtcome⟩ := hdoomed'
    cases hcall : s.calls id with
    | none =>
        rw [hcall] at hrequest
        cases hrequest
    | some call =>
        rw [hcall] at hrequest
        have hcompletes := hlaw.completes id call addr req _ hcall hrequest houtcome
        exact h.not_completes hdoomed addr _ hcompletes
  · intro hnot
    constructor
    · intro id call hcall hacquiring hmutex
      have hid := h.fits id
      rw [hcall] at hid
      have hholding : call.holding = true := hid.mutex.mpr hmutex
      cases call with
      | retrying addr req =>
          obtain ⟨file, hfile⟩ := hid.retries addr req rfl
          refine hnot id ⟨addr, req, file, ?_, outcome_of_result hfile⟩
          rw [hcall]
          rfl
      | called | woken | fetched | ended => cases hholding
      | _ => cases hacquiring
    · intro id other call call' addr hcall hcall' hfetches hfetches'
      have hid : s.inFlight addr = some id := by
        rw [(h.fits id).fetch, hcall]
        exact hfetches
      have hother : s.inFlight addr = some other := by
        rw [(h.fits other).fetch, hcall']
        exact hfetches'
      rw [hid] at hother
      exact Option.some.inj hother
    · intro id call addr req outcome hcall hrequest houtcome
      refine h.completes hnot ?_ houtcome
      rw [hcall]
      exact hrequest
    · exact fun id addr result hcall => h.returned hcall

/-! ## Runs -/

/-- Along a run, nobody waits for a fetch that has succeeded exactly while every step meets
the condition. -/
theorem meetingRun_iff (h : Run Started (Step B limits) past s) :
    (∀ u ∈ s :: past, ∀ id, ¬ Doomed u id) ↔ Run Started (MeetingStep B limits) past s := by
  induction h with
  | @start s hstarted =>
      refine ⟨fun _ => .start hstarted, fun _ u hu id => ?_⟩
      obtain rfl := List.mem_singleton.mp hu
      rintro ⟨addr, req, file, hrequest, -⟩
      rw [hstarted.calls] at hrequest
      cases hrequest
  | @step past s t hrun hstep ih =>
      have hinv : Inv B s := hrun.invariant (fun _ => started_inv) fun _ _ => Inv.step
      constructor
      · intro hnot
        have hnot' := fun u hu => hnot u (List.mem_cons_of_mem t hu)
        have hmeets := (hinv.doomed_iff hstep (hnot' s List.mem_cons_self)).mp
          (hnot t List.mem_cons_self)
        exact (ih.mp hnot').step ⟨hstep, hmeets⟩
      · rintro (_ | ⟨hrun', hstep', hmeets⟩)
        have hnot := ih.mpr hrun'
        intro u hu
        rcases List.mem_cons.mp hu with rfl | hu
        · exact (hinv.doomed_iff hstep (hnot s List.mem_cons_self)).mpr hmeets
        · exact hnot u hu

/-- `Get` keeps the law along a run exactly while no fetch succeeds that somebody waits for. -/
theorem get_law_iff (h : Run Started (Step B limits) past s) :
    (∀ u ∈ s :: past, Law B limits u) ↔ Run Started (MeetingStep B limits) past s := by
  rw [← meetingRun_iff h]
  have hinv : ∀ u ∈ s :: past, Inv B u := h.invariant_mem (fun _ => started_inv) fun _ _ => Inv.step
  exact forall₂_congr fun u hu => (hinv u hu).law_iff

/-! ### Two calls for one blob -/

/-- No fetch has come to a file. -/
structure Quiet (s : Cache Addr File Err) : Prop where
  results : ∀ req file, s.results req ≠ some (.file file)
  calls : ∀ id file, (s.calls id).bind Call.outcome ≠ some (.file file)

omit [DecidableEq Addr] [DecidableEq File] in
theorem Quiet.goOn (h : Quiet s) (id : ℕ) {call : Call Addr File Err}
    (hcall : ∀ file, call.outcome ≠ some (.file file)) : Quiet (s.goOn id call) where
  results := h.results
  calls := by
    intro other file hother
    rcases goOn_bind hother with ⟨-, hself⟩ | ⟨-, hother⟩
    · exact hcall file hself
    · exact h.calls other file hother

omit [DecidableEq File] in
theorem Quiet.finish (h : Quiet s) (id : ℕ) (addr addr' : Addr) (err : Err) :
    Quiet (({ s with
      mutex := some id
      results := Function.update s.results id (some (.failedToFetch addr' err))
      inFlight := Function.update s.inFlight addr none }.broadcast id).goOn id
        (.returning addr (.failedToFetch addr' err))) := by
  refine Quiet.goOn ⟨fun req file hresult => ?_, fun other file hother => ?_⟩ id nofun
  · by_cases hreq : req = id
    · subst hreq
      simp at hresult
    · simp only [broadcast_results, Function.update_of_ne hreq] at hresult
      exact h.results req file hresult
  · rw [broadcast_calls] at hother
    cases hcall : s.calls other with
    | none => simp [hcall] at hother
    | some call =>
        have hold := h.calls other file
        simp only [hcall, Option.map_some, Option.bind_some, outcome_wake] at hother hold
        exact hold hother

omit [DecidableEq Addr] [DecidableEq File] in
theorem Quiet.meets (hs : Quiet s) (ht : Quiet t) : Meets s t where
  succeed req addr file _ hfetched := by
    have hnot := ht.calls req file
    rw [hfetched] at hnot
    exact absurd rfl hnot
  wait id req addr _ _ file houtcome := by
    cases hresult : s.results req with
    | none =>
        rw [outcome_of_no_result hresult] at houtcome
        exact hs.calls req file houtcome
    | some result =>
        rw [outcome_of_result hresult] at houtcome
        cases houtcome
        exact hs.results req file hresult

/-- Files that are known by their address. -/
def named : Blobs GoString GoString := ⟨id, fun _ => 1⟩

def gigabyte : Limits := ⟨1073741824, 966367641⟩

abbrev NamedCache := Cache GoString GoString GoString

def emptyCache : NamedCache :=
  ⟨fun _ => none, 0, fun _ => none, fun _ => none, none, false, .idle, fun _ _ => 0, fun _ => none⟩

theorem started_emptyCache : Started emptyCache where
  cachedBlobs _ := rfl
  inFlight _ := rfl
  results _ := rfl
  mutex := rfl
  cleaner := rfl
  refs _ _ := rfl
  calls _ := rfl

/-- A run in which no fetch has come to a file. -/
def QuietRun (past : List NamedCache) (s : NamedCache) : Prop :=
  Run Started (MeetingStep named gigabyte) past s ∧ Quiet s

theorem QuietRun.step {past : List NamedCache} {s t : NamedCache} (h : QuietRun past s)
    (hstep : Step named gigabyte s t) (ht : Quiet t) : QuietRun (s :: past) t :=
  ⟨h.1.step ⟨hstep, h.2.meets ht⟩, ht⟩

omit [DecidableEq Addr] [DecidableEq File] in
theorem Quiet.pass (h : Quiet s) (mutex : Option ℕ) (inFlight : Addr → Option ℕ) :
    Quiet { s with mutex := mutex, inFlight := inFlight } := ⟨h.results, h.calls⟩

/-- One call fetches, and another one waits for it. -/
theorem run_waiting : ∃ (past : List NamedCache) (s : NamedCache), QuietRun past s ∧
    s.mutex = none ∧ s.calls 0 = some (.fetching ['Q', 'm', 'F']) ∧
    s.calls 1 = some (.waiting ['Q', 'm', 'F'] 0) := by
  have hstart : QuietRun [] emptyCache :=
    ⟨.start started_emptyCache, fun _ _ => nofun, fun _ _ => nofun⟩
  have hcalled := hstart.step (@Step.call _ _ _ _ _ _ _ _ 0 ['Q', 'm', 'F'] rfl)
    (hstart.2.goOn 0 nofun)
  have hlocked := hcalled.step (@Step.lock _ _ _ _ _ _ _ _ 0 _ rfl rfl)
    ((hcalled.2.pass (some 0) _).goOn 0 nofun)
  have hfetching := hlocked.step (@Step.fetch _ _ _ _ _ _ _ _ 0 _ rfl rfl rfl)
    ((hlocked.2.pass none _).goOn 0 nofun)
  have hcalled' := hfetching.step (@Step.call _ _ _ _ _ _ _ _ 1 ['Q', 'm', 'F'] rfl)
    (hfetching.2.goOn 1 nofun)
  have hlocked' := hcalled'.step (@Step.lock _ _ _ _ _ _ _ _ 1 _ rfl rfl)
    ((hcalled'.2.pass (some 1) _).goOn 1 nofun)
  have hwaiting := hlocked'.step (@Step.wait _ _ _ _ _ _ _ _ 1 0 _ rfl rfl rfl)
    ((hlocked'.2.pass none _).goOn 1 nofun)
  exact ⟨_, _, hwaiting, rfl, rfl, rfl⟩

/-- The fetch fails, and both calls return its error. -/
theorem get_law_failed : ∃ (past : List NamedCache) (s : NamedCache),
    Run Started (Step named gigabyte) past s ∧
    s.calls 1 = some (.returned ['Q', 'm', 'F'] (.failedToFetch ['Q', 'm', 'F'] ['5', '0', '2'])) ∧
    ∀ u ∈ s :: past, Law named gigabyte u := by
  obtain ⟨past, s, hwaiting, hmutex, hcall0, hcall1⟩ := run_waiting
  have hended := hwaiting.step (@Step.fetchFailed _ _ _ _ _ _ _ _ 0 _ ['5', '0', '2'] hcall0)
    (hwaiting.2.goOn 0 nofun)
  have hfinished := hended.step (@Step.finish _ _ _ _ _ _ _ _ 0 _ _ (goOn_calls_self ..) hmutex)
    (hended.2.finish 0 _ _ _)
  have hunlocked := hfinished.step (@Step.unlock _ _ _ _ _ _ _ _ 0 _ _ (goOn_calls_self ..))
    ((hfinished.2.pass none _).goOn 0 nofun)
  have hresumed := hunlocked.step (@Step.resume _ _ _ _ _ _ _ _ 1 0 ['Q', 'm', 'F']
    ((goOn_calls_of_ne _ one_ne_zero _).trans
      (finish_wakes one_ne_zero ((goOn_calls_of_ne s one_ne_zero _).trans hcall1))) rfl)
    ((hunlocked.2.pass (some 1) _).goOn 1 nofun)
  have hfailed := hresumed.step (@Step.fail _ _ _ _ _ _ _ _ 1 0 _ _ _ (goOn_calls_self ..) rfl)
    (hresumed.2.goOn 1 nofun)
  have hreturned := hfailed.step (@Step.unlock _ _ _ _ _ _ _ _ 1 _ _ (goOn_calls_self ..))
    ((hfailed.2.pass none _).goOn 1 nofun)
  have hrun := hreturned.1.mono fun _ _ hstep => hstep.1
  exact ⟨_, _, hrun, goOn_calls_self .., (get_law_iff hrun).mpr hreturned.1⟩

/-- The fetch succeeds; the call that has waited tries to take the mutex that it has. -/
theorem get_selfLock : ∃ (past : List NamedCache) (s : NamedCache),
    Run Started (Step named gigabyte) past s ∧
    s.calls 1 = some (.retrying ['Q', 'm', 'F'] 0) ∧ s.mutex = some 1 ∧
    ¬ Law named gigabyte s := by
  obtain ⟨past, s, ⟨hmeets, -⟩, hmutex, hcall0, hcall1⟩ := run_waiting
  have hwaiting := hmeets.mono fun _ _ hstep => hstep.1
  have hfetched := hwaiting.step
    (@Step.fetchDone _ _ _ _ _ _ _ _ 0 _ ['Q', 'm', 'F'] hcall0 rfl)
  have hstored := hfetched.step (@Step.store _ _ _ _ _ _ _ _ 0 _ _ (goOn_calls_self ..) hmutex)
  have hfinished := hstored.step
    (@Step.finish _ _ _ _ _ _ _ _ 0 _ _ (goOn_calls_self ..) hmutex)
  have hunlocked := hfinished.step (@Step.unlock _ _ _ _ _ _ _ _ 0 _ _ (goOn_calls_self ..))
  have hresumed := hunlocked.step (@Step.resume _ _ _ _ _ _ _ _ 1 0 ['Q', 'm', 'F']
    ((goOn_calls_of_ne _ one_ne_zero _).trans
      (finish_wakes one_ne_zero (by simp [goOn_calls, hcall1]))) rfl)
  have hretrying := hresumed.step
    (@Step.retry _ _ _ _ _ _ _ _ 1 0 _ (goOn_calls_self ..) fun _ _ => nofun)
  refine ⟨_, _, hretrying, goOn_calls_self .., rfl, fun hlaw => ?_⟩
  exact hlaw.noSelfLock 1 _ (goOn_calls_self ..) rfl rfl

end BlobGet

end Grits
