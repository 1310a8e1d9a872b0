import Grits.BlobCache.Get

/-!
# The mutex, the requests in flight and the references of the blob cache

One call at a time has the mutex, each request in flight belongs to the call that
fetches, and a call owns a reference of the file it is going to return.
-/

namespace Grits

namespace BlobGet

open Runs

variable {Addr File Err : Type}

/-! ## What the state of a call says -/

section Calls

def Call.addr : Call Addr File Err → Addr
  | .called addr => addr
  | .locked addr => addr
  | .waiting addr _ => addr
  | .woken addr _ => addr
  | .resumed addr _ => addr
  | .retrying addr _ => addr
  | .fetching addr => addr
  | .fetched addr _ => addr
  | .ended addr _ => addr
  | .returning addr _ => addr
  | .returned addr _ => addr

/-- The call is about to take the mutex. -/
def Call.acquiring : Call Addr File Err → Bool
  | .called _ => true
  | .woken _ _ => true
  | .retrying _ _ => true
  | .fetched _ _ => true
  | .ended _ _ => true
  | _ => false

/-- The call has the mutex. -/
def Call.holding : Call Addr File Err → Bool
  | .locked _ => true
  | .resumed _ _ => true
  | .retrying _ _ => true
  | .returning _ _ => true
  | _ => false

/-- The address the call is fetching. -/
def Call.fetches : Call Addr File Err → Option Addr
  | .fetching addr => some addr
  | .fetched addr _ => some addr
  | .ended addr _ => some addr
  | _ => none

/-- The request the call has waited for, and its address. -/
def Call.request : Call Addr File Err → Option (Addr × ℕ)
  | .waiting addr req => some (addr, req)
  | .woken addr req => some (addr, req)
  | .resumed addr req => some (addr, req)
  | .retrying addr req => some (addr, req)
  | _ => none

/-- The file the call has a reference of. -/
def Call.file : Call Addr File Err → Option File
  | .fetched _ file => some file
  | .ended _ (.file file) => some file
  | .returning _ (.file file) => some file
  | .returned _ (.file file) => some file
  | _ => none

/-- How the fetch of the call ended, before it says so in the request. -/
def Call.outcome : Call Addr File Err → Option (Result Addr File Err)
  | .fetched _ file => some (.file file)
  | .ended _ result => some result
  | _ => none

/-- How a fetch ended. -/
def Cache.outcome (s : Cache Addr File Err) (req : ℕ) : Option (Result Addr File Err) :=
  (s.results req).or ((s.calls req).bind Call.outcome)

end Calls

/-! ## The calls after one of them went on -/

section GoOn

variable {s : Cache Addr File Err}

@[simp] theorem goOn_calls_self (s : Cache Addr File Err) (id : ℕ) (call : Call Addr File Err) :
    (s.goOn id call).calls id = some call := Function.update_self ..

theorem goOn_calls_of_ne (s : Cache Addr File Err) {id other : ℕ} (h : other ≠ id)
    (call : Call Addr File Err) : (s.goOn id call).calls other = s.calls other :=
  Function.update_of_ne h ..

@[grind =] theorem goOn_calls (s : Cache Addr File Err) (id id' : ℕ)
    (call : Call Addr File Err) :
    (s.goOn id call).calls id' = if id' = id then some call else s.calls id' :=
  Function.update_apply ..

@[simp, grind =] theorem goOn_results (s : Cache Addr File Err) (id : ℕ)
    (call : Call Addr File Err) (req : ℕ) :
    (s.goOn id call).results req = s.results req := rfl

@[simp, grind =] theorem broadcast_calls (s : Cache Addr File Err) (id id' : ℕ) :
    (s.broadcast id).calls id' = (s.calls id').map (Call.wake id) := rfl

@[simp, grind =] theorem broadcast_results (s : Cache Addr File Err) (id : ℕ) (req : ℕ) :
    (s.broadcast id).results req = s.results req := rfl

/-- A broadcast wakes the calls that wait for the request, and no others. -/
theorem wake_cases (req : ℕ) (call : Option (Call Addr File Err)) :
    (∃ addr, call = some (.waiting addr req) ∧
      call.map (Call.wake req) = some (.woken addr req)) ∨
    ((∀ addr, call ≠ some (.waiting addr req)) ∧ call.map (Call.wake req) = call) := by
  rcases call with _ | call
  · exact .inr ⟨by simp, rfl⟩
  · cases call with
    | waiting addr req' =>
        by_cases hreq : req' = req
        · subst hreq
          exact .inl ⟨addr, rfl, by simp [Call.wake]⟩
        · exact .inr ⟨by simp [hreq], by simp [Call.wake, hreq]⟩
    | _ => exact .inr ⟨by simp, rfl⟩

/-- What is said of a call, when one of the calls went on. -/
theorem goOn_bind {α : Type} {f : Call Addr File Err → Option α} {x : α} {id id' : ℕ}
    {call : Call Addr File Err} (h : ((s.goOn id' call).calls id).bind f = some x) :
    id = id' ∧ f call = some x ∨ id ≠ id' ∧ (s.calls id).bind f = some x := by
  by_cases hid : id = id'
  · subst hid
    rw [goOn_calls_self] at h
    exact .inl ⟨rfl, h⟩
  · rw [goOn_calls_of_ne s hid] at h
    exact .inr ⟨hid, h⟩

theorem bind_goOn {α : Type} {f : Call Addr File Err → Option α} {x : α} {id id' : ℕ}
    {call : Call Addr File Err} (h : (s.calls id).bind f = some x)
    (hself : id = id' → f call = some x) : ((s.goOn id' call).calls id).bind f = some x := by
  by_cases hid : id = id'
  · rw [hid, goOn_calls_self]
    exact hself hid
  · rwa [goOn_calls_of_ne s hid]

@[simp] theorem request_wake (req : ℕ) (call : Call Addr File Err) :
    (call.wake req).request = call.request := by
  cases call with
  | waiting addr req' =>
      rw [Call.wake]
      split
      · rfl
      · rfl
  | _ => rfl

@[simp] theorem bind_wake_request (req : ℕ) (call : Option (Call Addr File Err)) :
    (call.map (Call.wake req)).bind Call.request = call.bind Call.request := by
  cases call with
  | none => rfl
  | some call => exact request_wake req call

@[simp] theorem outcome_wake (req : ℕ) (call : Call Addr File Err) :
    (call.wake req).outcome = call.outcome := by
  cases call with
  | waiting addr req' =>
      rw [Call.wake]
      split
      · rfl
      · rfl
  | _ => rfl

/-! ## How a fetch ended -/

theorem outcome_of_result {req : ℕ} {result : Result Addr File Err}
    (h : s.results req = some result) : s.outcome req = some result := by
  rw [Cache.outcome, h, Option.some_or]

theorem outcome_of_no_result {req : ℕ} (h : s.results req = none) :
    s.outcome req = (s.calls req).bind Call.outcome := by
  rw [Cache.outcome, h, Option.none_or]

theorem outcome_goOn_cases {id req : ℕ} {call : Call Addr File Err}
    {result : Result Addr File Err} (h : (s.goOn id call).outcome req = some result) :
    s.outcome req = some result ∨ req = id ∧ call.outcome = some result := by
  cases hresults : s.results req with
  | some result' =>
      have hold := outcome_of_result hresults
      have hnew : (s.goOn id call).outcome req = some result' := outcome_of_result hresults
      rw [hold, ← hnew]
      exact .inl h
  | none =>
      rw [outcome_of_no_result hresults]
      have hnew : ((s.goOn id call).calls req).bind Call.outcome = some result := by
        rwa [← outcome_of_no_result (s := s.goOn id call) hresults]
      rcases goOn_bind hnew with hself | ⟨-, hother⟩
      · exact .inr hself
      · exact .inl hother

theorem outcome_goOn {id req : ℕ} {call : Call Addr File Err} {result : Result Addr File Err}
    (h : s.outcome req = some result)
    (hself : req = id → s.results req = none → call.outcome = some result) :
    (s.goOn id call).outcome req = some result := by
  cases hresults : s.results req with
  | some result' =>
      rw [outcome_of_result hresults] at h
      rw [outcome_of_result (s := s.goOn id call) hresults, h]
  | none =>
      rw [outcome_of_no_result (s := s.goOn id call) hresults]
      by_cases hreq : req = id
      · rw [hreq, goOn_calls_self]
        exact hself hreq hresults
      · rw [goOn_calls_of_ne s hreq, ← outcome_of_no_result hresults]
        exact h

end GoOn

/-! ## What the operations leave alone -/

section Entries

variable [DecidableEq Addr] {B : Blobs Addr File} {limits : Limits}

@[simp, grind =] theorem putEntry_calls (s : Cache Addr File Err) (addr : Addr) (file : File)
    (id : ℕ) :
    (s.putEntry addr file).calls id = s.calls id := rfl

@[simp, grind =] theorem putEntry_mutex (s : Cache Addr File Err) (addr : Addr) (file : File) :
    (s.putEntry addr file).mutex = s.mutex := rfl

@[simp, grind =] theorem putEntry_inFlight (s : Cache Addr File Err) (addr addr' : Addr)
    (file : File) :
    (s.putEntry addr file).inFlight addr' = s.inFlight addr' := rfl

@[simp, grind =] theorem putEntry_results (s : Cache Addr File Err) (addr : Addr) (file : File)
    (req : ℕ) :
    (s.putEntry addr file).results req = s.results req := rfl

@[simp, grind =] theorem putEntry_refs (s : Cache Addr File Err) (addr : Addr)
    (file other : File) (owner : Owner) :
    (s.putEntry addr file).refs other owner = s.refs other owner := rfl

/-- What the cleanup leaves alone. -/
structure Cleaned (s t : Cache Addr File Err) : Prop where
  calls : t.calls = s.calls
  mutex : t.mutex = s.mutex
  inFlight : t.inFlight = s.inFlight
  results : t.results = s.results
  refs : ∀ file id, t.refs file (.call id) = s.refs file (.call id)
  cached : ∀ addr file, t.cachedBlobs addr = some file → s.cachedBlobs addr = some file

theorem evict_cleaned (s : Cache Addr File Err) (entries : List (Addr × File))
    (toRemove : List File) : Cleaned s (s.evict B limits entries toRemove) := by
  induction entries generalizing s toRemove with
  | nil => exact ⟨rfl, rfl, rfl, rfl, fun _ _ => rfl, fun _ _ h => h⟩
  | cons entry entries ih =>
      obtain ⟨addr, file⟩ := entry
      rw [Cache.evict]
      split
      next => exact ⟨rfl, rfl, rfl, rfl, fun _ _ => rfl, fun _ _ h => h⟩
      next =>
        obtain ⟨hcalls, hmutex, hinFlight, hresults, hrefs, hcached⟩ := ih
          { s with
            cachedBlobs := Function.update s.cachedBlobs addr none
            currentSize := s.currentSize - B.getSize file } (toRemove ++ [file])
        refine ⟨hcalls, hmutex, hinFlight, hresults, hrefs, fun addr' file' hfile => ?_⟩
        have hfile' : Function.update s.cachedBlobs addr none addr' = some file' :=
          hcached addr' file' hfile
        by_cases heq : addr' = addr
        · subst heq
          simp at hfile'
        · rwa [Function.update_of_ne heq] at hfile'

end Entries

variable [DecidableEq File]

section Frames

variable (s : Cache Addr File Err) (file other : File) (id id' : ℕ)

@[simp, grind =] theorem take_calls (owner : Owner) :
    (s.take file owner).calls id = s.calls id := rfl

@[simp, grind =] theorem take_mutex (owner : Owner) :
    (s.take file owner).mutex = s.mutex := rfl

@[simp, grind =] theorem take_inFlight (owner : Owner) (addr' : Addr) :
    (s.take file owner).inFlight addr' = s.inFlight addr' := rfl

@[simp, grind =] theorem take_results (owner : Owner) (req : ℕ) :
    (s.take file owner).results req = s.results req := rfl

@[simp, grind =] theorem take_call_refs : (s.take file (.call id)).refs other (.call id') =
    if other = file ∧ id' = id then s.refs other (.call id') + 1 else s.refs other (.call id') := by
  simp [Cache.take]

@[simp, grind =] theorem take_cache_refs :
    (s.take file .cache).refs other (.call id) = s.refs other (.call id) := by
  simp [Cache.take]

@[simp, grind =] theorem release_cache_refs :
    (s.release file .cache).refs other (.call id) = s.refs other (.call id) := by
  simp [Cache.release]

@[simp, grind =] theorem release_calls (owner : Owner) :
    (s.release file owner).calls id = s.calls id := rfl

@[simp, grind =] theorem release_results (owner : Owner) (req : ℕ) :
    (s.release file owner).results req = s.results req := rfl

end Frames

variable {B : Blobs Addr File} {limits : Limits} {s t : Cache Addr File Err}

/-! ## The invariant -/

/-- What the shared state says of a call. -/
structure Fits (B : Blobs Addr File) (s : Cache Addr File Err) (id : ℕ)
    (call : Option (Call Addr File Err)) : Prop where
  mutex : call.any Call.holding = true ↔ s.mutex = some id
  fetch : ∀ addr, s.inFlight addr = some id ↔ call.bind Call.fetches = some addr
  waits : ∀ addr req, call = some (.waiting addr req) → s.inFlight addr = some req
  woken : ∀ addr req, call.bind Call.request = some (addr, req) →
    call = some (.waiting addr req) ∨ ∃ result, s.results req = some result
  retries : ∀ addr req, call = some (.retrying addr req) →
    ∃ file, s.results req = some (.file file)
  done : ∀ result, s.results id = some result →
    ∃ addr, call = some (.returning addr result) ∨ call = some (.returned addr result)
  refs : ∀ file, s.refs file (.call id) = if call.bind Call.file = some file then 1 else 0
  address : ∀ file, call.bind Call.file = some file → call.map Call.addr = some (B.getAddress file)

/-- The invariant of a run. -/
structure Inv (B : Blobs Addr File) (s : Cache Addr File Err) : Prop where
  fits : ∀ id, Fits B s id (s.calls id)
  cached : ∀ addr file, s.cachedBlobs addr = some file → B.getAddress file = addr

theorem started_inv (h : Started s) : Inv B s where
  fits := by
    intro id
    rw [h.calls]
    constructor <;> simp [h.mutex, h.inFlight, h.results, h.refs]
  cached := by simp [h.cachedBlobs]

/-- A call that does not take part in a step. -/
theorem Fits.frame {id : ℕ} {call : Option (Call Addr File Err)} (h : Fits B s id call)
    (hmutex : t.mutex = some id ↔ s.mutex = some id)
    (hfetch : ∀ addr, t.inFlight addr = some id ↔ s.inFlight addr = some id)
    (hwaits : ∀ addr req, call = some (.waiting addr req) → s.inFlight addr = some req →
      t.inFlight addr = some req)
    (hresults : ∀ req result, s.results req = some result → t.results req = some result)
    (hself : t.results id = s.results id)
    (hrefs : ∀ file, t.refs file (.call id) = s.refs file (.call id)) : Fits B t id call where
  mutex := h.mutex.trans hmutex.symm
  fetch addr := (hfetch addr).trans (h.fetch addr)
  waits addr req hcall := hwaits addr req hcall (h.waits addr req hcall)
  woken addr req hcall :=
    (h.woken addr req hcall).imp_right fun ⟨result, hresult⟩ => ⟨result, hresults req _ hresult⟩
  retries addr req hcall := by
    obtain ⟨file, hfile⟩ := h.retries addr req hcall
    exact ⟨file, hresults req _ hfile⟩
  done result hresult := h.done result (hself ▸ hresult)
  refs file := (hrefs file).trans (h.refs file)
  address := h.address

theorem Fits.withCalls {id : ℕ} {call : Option (Call Addr File Err)} (h : Fits B s id call)
    (calls : ℕ → Option (Call Addr File Err)) : Fits B { s with calls := calls } id call :=
  h.frame Iff.rfl (fun _ => Iff.rfl) (fun _ _ _ h => h) (fun _ _ h => h) rfl fun _ => rfl

/-- A step in which one call goes on. -/
theorem Inv.goOn (h : Inv B s) {id : ℕ} {call : Call Addr File Err}
    (hcalls : t.calls = s.calls) (hself : Fits B t id (some call))
    (hothers : ∀ other, other ≠ id → Fits B t other (s.calls other))
    (hcached : ∀ addr file, t.cachedBlobs addr = some file → B.getAddress file = addr) :
    Inv B (t.goOn id call) where
  fits := by
    intro other
    by_cases hother : other = id
    · subst hother
      rw [goOn_calls_self]
      exact hself.withCalls _
    · rw [goOn_calls_of_ne t hother, hcalls]
      exact (hothers other hother).withCalls _
  cached := hcached

attribute [simp, grind] Call.holding Call.fetches Call.file Call.request Call.addr

variable [DecidableEq Addr]

theorem Inv.cached_putEntry (h : Inv B s) {addr : Addr} {file : File}
    (haddr : B.getAddress file = addr) (addr' : Addr) (file' : File)
    (hfile : (s.putEntry addr file).cachedBlobs addr' = some file') :
    B.getAddress file' = addr' := by
  simp only [Cache.putEntry] at hfile
  by_cases heq : addr' = addr
  · subst heq
    rw [Function.update_self, Option.some.injEq] at hfile
    rwa [← hfile]
  · rw [Function.update_of_ne heq] at hfile
    exact h.cached addr' file' hfile

omit [DecidableEq Addr] in
/-- A step in which one call goes on and the mutex changes hands. -/
theorem Inv.pass (h : Inv B s) {id : ℕ} {call : Call Addr File Err} {mutex : Option ℕ}
    (hself : Fits B { s with mutex := mutex } id (some call))
    (hmutex : ∀ other, other ≠ id → (mutex = some other ↔ s.mutex = some other)) :
    Inv B ({ s with mutex := mutex }.goOn id call) := by
  refine h.goOn (t := { s with mutex := mutex }) rfl hself (fun other hne => ?_) h.cached
  exact (h.fits other).frame (hmutex other hne) (fun _ => Iff.rfl) (fun _ _ _ h => h)
    (fun _ _ h => h) rfl fun _ => rfl

omit [DecidableEq Addr] in
/-- A step of the cleanup. -/
theorem Inv.clean (h : Inv B s) (hclean : Cleaned s t) : Inv B t where
  fits := by
    intro id
    rw [hclean.calls]
    apply (h.fits id).frame
    · rw [hclean.mutex]
    · rw [hclean.inFlight]
      exact fun _ => Iff.rfl
    · rw [hclean.inFlight]
      exact fun _ _ _ h => h
    · rw [hclean.results]
      exact fun _ _ h => h
    · rw [hclean.results]
    · exact fun file => hclean.refs file id
  cached addr file hfile := h.cached addr file (hclean.cached addr file hfile)

/-- The update of a request, with the calls it wakes. -/
theorem Inv.finish (h : Inv B s) {id : ℕ} {addr : Addr} {result : Result Addr File Err}
    (hcall : s.calls id = some (.ended addr result)) (hfree : s.mutex = none) :
    Inv B (({ s with
      mutex := some id
      results := Function.update s.results id (some result)
      inFlight := Function.update s.inFlight addr none }.broadcast id).goOn id
        (.returning addr result)) := by
  have hid := h.fits id
  rw [hcall] at hid
  obtain ⟨hmutex, hfetch, hwaits, hwoken, hretries, hdone, hrefs, haddress⟩ := hid
  have hnew : s.results id = none := by
    rw [Option.eq_none_iff_forall_ne_some]
    grind
  have haddr : s.inFlight addr = some id := by grind
  refine ⟨fun other => ?_, h.cached⟩
  by_cases hother : other = id
  · subst hother
    rw [goOn_calls_self]
    refine Fits.withCalls (s := { s with
      mutex := some other
      results := Function.update s.results other (some result)
      inFlight := Function.update s.inFlight addr none }) ?_ _
    have hdone' : ∀ result', Function.update s.results other (some result) other = some result' →
        ∃ addr', some (Call.returning addr result) = some (.returning addr' result') ∨
          some (Call.returning addr result) = some (.returned addr' result') := by
      intro result' hresult'
      rw [Function.update_self, Option.some.injEq] at hresult'
      exact ⟨addr, .inl (by rw [hresult'])⟩
    refine ⟨?_, ?_, ?_, ?_, ?_, hdone', ?_, ?_⟩
    all_goals cases result <;> grind [Function.update_apply]
  · rw [goOn_calls_of_ne _ hother]
    refine Fits.withCalls (s := { s with
      mutex := some id
      results := Function.update s.results id (some result)
      inFlight := Function.update s.inFlight addr none }) ?_ _
    show Fits B _ other ((s.calls other).map (Call.wake id))
    have hold := h.fits other
    rcases wake_cases id (s.calls other) with ⟨addr', hwaiting, hwoken'⟩ | ⟨hnot, hsame⟩
    · rw [hwaiting] at hold
      obtain ⟨hmutex, hfetch, hwaits, hwoken, hretries, hdone, hrefs, haddress⟩ := hold
      rw [hwoken']
      have hresult : Function.update s.results id (some result) id = some result :=
        Function.update_self ..
      constructor <;> grind [Function.update_apply]
    · rw [hsame]
      have hreq : ∀ addr' req, s.calls other = some (.waiting addr' req) →
          s.inFlight addr' = some req → Function.update s.inFlight addr none addr' = some req := by
        intro addr' req hwaiting hinFlight
        have haddr' : addr' ≠ addr := by
          rintro rfl
          rw [haddr, Option.some.injEq] at hinFlight
          exact hnot addr' (hinFlight ▸ hwaiting)
        rwa [Function.update_of_ne haddr']
      apply hold.frame _ _ hreq <;> grind [Function.update_apply]

theorem Inv.step (h : Inv B s) (hstep : Step B limits s t) : Inv B t := by
  cases hstep with
  | @call id addr hidle =>
      have hid := h.fits id
      rw [hidle] at hid
      obtain ⟨hmutex, hfetch, hwaits, hwoken, hretries, hdone, hrefs, haddress⟩ := hid
      exact h.pass (by constructor <;> grind) (by grind)
  | @lock id addr hcall hfree =>
      have hid := h.fits id
      rw [hcall] at hid
      obtain ⟨hmutex, hfetch, hwaits, hwoken, hretries, hdone, hrefs, haddress⟩ := hid
      exact h.pass (by constructor <;> grind) (by grind)
  | @hit id addr file hcall hentry =>
      have haddr := h.cached addr file hentry
      have hid := h.fits id
      rw [hcall] at hid
      obtain ⟨hmutex, hfetch, hwaits, hwoken, hretries, hdone, hrefs, haddress⟩ := hid
      refine h.goOn rfl ?_ (fun other hne => ?_) h.cached
      · constructor <;> grind
      · apply (h.fits other).frame <;> grind
  | @readFile id addr file hcall hentry haddr =>
      have hid := h.fits id
      rw [hcall] at hid
      obtain ⟨hmutex, hfetch, hwaits, hwoken, hretries, hdone, hrefs, haddress⟩ := hid
      refine h.goOn rfl ?_ (fun other hne => ?_) (h.cached_putEntry haddr)
      · constructor <;> grind
      · apply (h.fits other).frame <;> grind
  | @wait id req addr hcall hentry hreq =>
      have hid := h.fits id
      rw [hcall] at hid
      obtain ⟨hmutex, hfetch, hwaits, hwoken, hretries, hdone, hrefs, haddress⟩ := hid
      exact h.pass (by constructor <;> grind) (by grind)
  | @fetch id addr hcall hentry hreq =>
      have hid := h.fits id
      rw [hcall] at hid
      obtain ⟨hmutex, hfetch, hwaits, hwoken, hretries, hdone, hrefs, haddress⟩ := hid
      refine h.goOn (t := { s with
        inFlight := Function.update s.inFlight addr (some id), mutex := none }) rfl ?_
          (fun other hne => ?_) h.cached
      · constructor <;> grind [Function.update_apply]
      · apply (h.fits other).frame <;> grind [Function.update_apply]
  | @fetchDone id addr file hcall haddr =>
      have hid := h.fits id
      rw [hcall] at hid
      obtain ⟨hmutex, hfetch, hwaits, hwoken, hretries, hdone, hrefs, haddress⟩ := hid
      refine h.goOn rfl ?_ (fun other hne => ?_) h.cached
      · constructor <;> grind
      · apply (h.fits other).frame <;> grind
  | @fetchFailed id addr err hcall =>
      have hid := h.fits id
      rw [hcall] at hid
      obtain ⟨hmutex, hfetch, hwaits, hwoken, hretries, hdone, hrefs, haddress⟩ := hid
      exact h.pass (by constructor <;> grind) (by grind)
  | @store id addr file hcall hfree =>
      have hid := h.fits id
      rw [hcall] at hid
      obtain ⟨hmutex, hfetch, hwaits, hwoken, hretries, hdone, hrefs, haddress⟩ := hid
      refine h.goOn rfl ?_ (fun other hne => ?_) (h.cached_putEntry (by grind))
      · constructor <;> grind
      · apply (h.fits other).frame <;> grind
  | finish hcall hfree => exact h.finish hcall hfree
  | @resume id req addr hcall hfree =>
      have hid := h.fits id
      rw [hcall] at hid
      obtain ⟨hmutex, hfetch, hwaits, hwoken, hretries, hdone, hrefs, haddress⟩ := hid
      exact h.pass (by constructor <;> grind) (by grind)
  | @fail id req addr addr' err hcall herr =>
      have hid := h.fits id
      rw [hcall] at hid
      obtain ⟨hmutex, hfetch, hwaits, hwoken, hretries, hdone, hrefs, haddress⟩ := hid
      exact h.pass (by constructor <;> grind) (by grind)
  | @retry id req addr hcall herr =>
      have hid := h.fits id
      rw [hcall] at hid
      obtain ⟨hmutex, hfetch, hwaits, hwoken, hretries, hdone, hrefs, haddress⟩ := hid
      obtain ⟨result, hresult⟩ : ∃ result, s.results req = some result := by
        simpa using hwoken addr req rfl
      exact h.pass (by cases result <;> constructor <;> grind) (by grind)
  | @lockRetry id req addr hcall hfree =>
      have hid := h.fits id
      rw [hcall] at hid
      obtain ⟨hmutex, hfetch, hwaits, hwoken, hretries, hdone, hrefs, haddress⟩ := hid
      exact h.pass (by constructor <;> grind) (by grind)
  | @unlock id addr result hcall =>
      have hid := h.fits id
      rw [hcall] at hid
      obtain ⟨hmutex, hfetch, hwaits, hwoken, hretries, hdone, hrefs, haddress⟩ := hid
      refine h.pass ?_ (by grind)
      cases result <;> constructor <;> grind
  | cleanup => exact h.clean ⟨rfl, rfl, rfl, rfl, fun _ _ => rfl, fun _ _ h => h⟩
  | collect => exact h.clean ⟨rfl, rfl, rfl, rfl, fun _ _ => rfl, fun _ _ h => h⟩
  | evict => exact h.clean (evict_cleaned ..)
  | release =>
      exact h.clean ⟨rfl, rfl, rfl, rfl, fun file id => release_cache_refs .., fun _ _ h => h⟩
  | cleaned => exact h.clean ⟨rfl, rfl, rfl, rfl, fun _ _ => rfl, fun _ _ h => h⟩

end BlobGet

end Grits
