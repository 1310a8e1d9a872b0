import Grits.Library.Runs
import Grits.Library.SlashPath

/-!
# The request counters of the mirror manager

`fetchBlob` and `refreshMirrorList` of `client/lib/grits/MirrorManager.js`, with the calls
of `fetchBlob` that have not settled.  A call waits for a mirror or for the server; what
happens between two answers happens in one turn of the event loop.

`selectBestMirror` weighs measured times.  Here an event says which of the mirrors of the
volume it picks, and every pick is possible.  The measurements, the counts of bytes and
`resetOldStatistics`, which nothing calls, are left out.
-/

namespace Grits

namespace MirrorManager

open Runs

/-! ## The model -/

/-- A mirror as the server lists it. -/
structure MirrorInfo where
  url : Option GoString
  volumes : Option (List GoString)

/-- A value of `mirrors`. -/
structure Mirror where
  url : GoString
  volumes : List GoString

/-- The counters of a mirror in `mirrorPerformance`. -/
structure Stats where
  errorCount : ℤ
  successCount : ℤ
  totalRequests : ℤ
  inFlightRequests : ℤ

/-- The request that a call of `fetchBlob` waits for. -/
inductive Call where
  | server
  | mirror (url : GoString)
  deriving DecidableEq

/-- A `MirrorManager`, and the calls that are outstanding. -/
structure State where
  volume : GoString
  mirrors : List Mirror
  mirrorPerformance : GoString → Option Stats
  activeRequests : ℤ
  calls : List Call

/-- A new manager. -/
def new (volume : GoString) : State where
  volume := volume
  mirrors := []
  mirrorPerformance _ := none
  activeRequests := 0
  calls := []

/-- `replace(/\/$/, '')` -/
def trimSlash (url : GoString) : GoString :=
  if url.getLast? = some '/' then url.dropLast else url

/-- A mirror of the list, unless it has no URL. -/
def readMirror (volume : GoString) (mirror : MirrorInfo) : Option Mirror :=
  let url := trimSlash (mirror.url.getD [])
  if url = [] then none else some ⟨url, mirror.volumes.getD [volume]⟩

/-- The counters of a new mirror. -/
def newStats : Stats := ⟨0, 0, 0, 0⟩

/-- `refreshMirrorList`, once it has the list.  A 404 is an empty list. -/
def refreshMirrorList (mirrorList : List MirrorInfo) (s : State) : State :=
  let mirrors := mirrorList.filterMap (readMirror s.volume)
  { s with
    mirrors := mirrors
    mirrorPerformance := fun url =>
      match s.mirrorPerformance url with
      | some stats => some stats
      | none => if ∃ mirror ∈ mirrors, mirror.url = url then some newStats else none }

/-- `selectBestMirror`: one of the mirrors with the volume. -/
def selectBestMirror (pick : ℕ) (s : State) : Option GoString :=
  let compatible := s.mirrors.filter fun mirror => mirror.volumes.contains s.volume
  (compatible[pick % compatible.length]?).map (·.url)

/-- A change of the counters of a mirror. -/
def State.updateStats (s : State) (url : GoString) (f : Stats → Stats) : State :=
  { s with
    mirrorPerformance := fun other =>
      if other = url then (s.mirrorPerformance url).map f else s.mirrorPerformance other }

/-- How a request ends. -/
inductive Outcome where
  | ok
  /-- `response.ok` is false. -/
  | badStatus
  /-- `fetch` rejects. -/
  | rejected
  deriving DecidableEq

/-- `fetchBlob` up to its first request. -/
def fetchBlob (pick : ℕ) (s : State) : State :=
  if s.mirrors = [] then { s with calls := s.calls ++ [.server] }
  else
    let s := { s with activeRequests := s.activeRequests + 1 }
    match selectBestMirror pick s with
    | none => { s with calls := s.calls ++ [.server] }
    | some url =>
        -- without counters, `stats.inFlightRequests++` throws and the server is asked
        if s.mirrorPerformance url = none then { s with calls := s.calls ++ [.server] }
        else
          let s := s.updateStats url fun stats =>
            { stats with
              inFlightRequests := stats.inFlightRequests + 1
              totalRequests := stats.totalRequests + 1 }
          { s with calls := s.calls ++ [.mirror url] }

/-- The end of a call: `finally { this.activeRequests--; }`. -/
def State.finish (s : State) (i : ℕ) : State :=
  { s with activeRequests := s.activeRequests - 1, calls := s.calls.eraseIdx i }

/-- `fetchBlob` from the end of the request that the call `i` waits for. -/
def answer (i : ℕ) (outcome : Outcome) (s : State) : State :=
  match s.calls[i]? with
  | none => s
  | some .server => s.finish i
  | some (.mirror url) =>
      match outcome with
      | .ok =>
          (s.updateStats url fun stats =>
            { stats with
              successCount := stats.successCount + 1
              inFlightRequests := stats.inFlightRequests - 1 }).finish i
      | .badStatus =>
          { s.updateStats url fun stats => { stats with errorCount := stats.errorCount + 1 } with
            calls := s.calls.set i .server }
      | .rejected => { s with calls := s.calls.set i .server }

/-- What happens to a manager. -/
inductive Event where
  | refreshMirrorList (mirrorList : List MirrorInfo)
  | fetchBlob (pick : ℕ)
  | answer (i : ℕ) (outcome : Outcome)

/-- The state after an event. -/
def next : Event → State → State
  | .refreshMirrorList mirrorList => refreshMirrorList mirrorList
  | .fetchBlob pick => fetchBlob pick
  | .answer i outcome => answer i outcome

/-! ## What the counters should say -/

/-- The counters count the calls and the requests that are outstanding. -/
structure Exact (s : State) : Prop where
  activeRequests_eq : s.activeRequests = s.calls.length
  inFlight_eq : ∀ url stats, s.mirrorPerformance url = some stats →
    stats.inFlightRequests = s.calls.count (.mirror url)
  activeRequests_nonneg : 0 ≤ s.activeRequests
  inFlight_nonneg : ∀ url stats, s.mirrorPerformance url = some stats →
    0 ≤ stats.inFlightRequests
  idle : s.calls = [] → s.activeRequests = 0 ∧
    ∀ url stats, s.mirrorPerformance url = some stats → stats.inFlightRequests = 0

/-- The event leaves the counters right: a call finds a mirror configured, and a mirror
answers with success. -/
def Counted : Event → State → Prop
  | .refreshMirrorList _, _ => True
  | .fetchBlob _, s => s.mirrors ≠ []
  | .answer i outcome, s => ∀ url, s.calls[i]? = some (.mirror url) → outcome = .ok

/-- The counters are exact, and the mirrors that are asked have counters. -/
structure Kept (s : State) : Prop where
  activeRequests_eq : s.activeRequests = s.calls.length
  inFlight_eq : ∀ url stats, s.mirrorPerformance url = some stats →
    stats.inFlightRequests = s.calls.count (.mirror url)
  known : ∀ url, .mirror url ∈ s.calls → s.mirrorPerformance url ≠ none

theorem Kept.exact {s : State} (h : Kept s) : Exact s where
  activeRequests_eq := h.activeRequests_eq
  inFlight_eq := h.inFlight_eq
  activeRequests_nonneg := by
    rw [h.activeRequests_eq]
    exact Int.natCast_nonneg _
  inFlight_nonneg url stats hstats := by
    rw [h.inFlight_eq url stats hstats]
    exact Int.natCast_nonneg _
  idle hnil := by
    rw [h.activeRequests_eq, hnil]
    refine ⟨rfl, ?_⟩
    intro url stats hstats
    rw [h.inFlight_eq url stats hstats, hnil]
    rfl

theorem kept_new (volume : GoString) : Kept (new volume) where
  activeRequests_eq := rfl
  inFlight_eq _ _ hstats := by cases hstats
  known _ hmem := by cases hmem

/-! ## The steps -/

theorem updateStats_eq_some {s : State} {url other : GoString} {f : Stats → Stats} {stats : Stats}
    (h : (s.updateStats url f).mirrorPerformance other = some stats) :
    ∃ old, s.mirrorPerformance other = some old ∧
      stats = if other = url then f old else old := by
  by_cases heq : other = url
  · subst heq
    have hmap : (s.mirrorPerformance other).map f = some stats := by
      rw [State.updateStats] at h
      simpa using h
    obtain ⟨old, hold, rfl⟩ := Option.map_eq_some_iff.mp hmap
    exact ⟨old, hold, (if_pos rfl).symm⟩
  · rw [State.updateStats] at h
    refine ⟨stats, ?_, (if_neg heq).symm⟩
    simpa [heq] using h

theorem updateStats_ne_none {s : State} {url other : GoString} {f : Stats → Stats} :
    (s.updateStats url f).mirrorPerformance other ≠ none ↔ s.mirrorPerformance other ≠ none := by
  rw [State.updateStats]
  by_cases heq : other = url
  · subst heq
    simp
  · simp [heq]

theorem Kept.refreshMirrorList {s : State} (h : Kept s) (mirrorList : List MirrorInfo) :
    Kept (refreshMirrorList mirrorList s) := by
  constructor
  · exact h.activeRequests_eq
  · intro url stats hstats
    show stats.inFlightRequests = s.calls.count (.mirror url)
    rw [MirrorManager.refreshMirrorList] at hstats
    dsimp only at hstats
    cases hold : s.mirrorPerformance url with
    | some old =>
        rw [hold] at hstats
        rw [← Option.some.inj hstats]
        exact h.inFlight_eq url old hold
    | none =>
        rw [hold] at hstats
        dsimp only at hstats
        split at hstats
        next =>
          -- nobody has asked a mirror without counters
          have hcount : s.calls.count (.mirror url) = 0 :=
            List.count_eq_zero.mpr fun hmem => h.known url hmem hold
          rw [← Option.some.inj hstats, hcount]
          rfl
        next => cases hstats
  · intro url hmem
    have hknown := h.known url hmem
    obtain ⟨old, hold⟩ := Option.ne_none_iff_exists'.mp hknown
    rw [MirrorManager.refreshMirrorList]
    dsimp only
    rw [hold]
    exact Option.some_ne_none old

/-- A call that goes to the server first. -/
theorem Kept.callServer {s : State} (h : Kept s) :
    Kept { s with activeRequests := s.activeRequests + 1, calls := s.calls ++ [.server] } := by
  constructor
  · show s.activeRequests + 1 = _
    rw [h.activeRequests_eq, List.length_append, List.length_singleton, Nat.cast_add, Nat.cast_one]
  · intro url stats hstats
    rw [List.count_append, h.inFlight_eq url stats hstats]
    rfl
  · intro url hmem
    rcases List.mem_append.mp hmem with hmem | hmem
    · exact h.known url hmem
    · cases List.mem_singleton.mp hmem

theorem Kept.fetchBlob {s : State} (h : Kept s) (pick : ℕ) (hmirrors : s.mirrors ≠ []) :
    Kept (fetchBlob pick s) := by
  rw [MirrorManager.fetchBlob, if_neg hmirrors]
  dsimp only
  cases hselect : selectBestMirror pick { s with activeRequests := s.activeRequests + 1 } with
  | none => exact h.callServer
  | some url =>
      dsimp only
      split
      next => exact h.callServer
      next hknown =>
        constructor
        · show s.activeRequests + 1 = ((s.calls ++ [Call.mirror url]).length : ℤ)
          rw [h.activeRequests_eq, List.length_append, List.length_singleton, Nat.cast_add,
            Nat.cast_one]
        · intro other stats hstats
          obtain ⟨old, hold, rfl⟩ := updateStats_eq_some hstats
          have hcount : old.inFlightRequests = s.calls.count (.mirror other) :=
            h.inFlight_eq other old hold
          show _ = ((s.calls ++ [Call.mirror url]).count (Call.mirror other) : ℤ)
          rw [List.count_append]
          by_cases heq : other = url
          · subst heq
            rw [if_pos rfl, List.count_singleton_self, Nat.cast_add, ← hcount]
            rfl
          · have hne : Call.mirror url ≠ .mirror other := fun hcall =>
              heq (Call.mirror.inj hcall).symm
            rw [if_neg heq, List.count_singleton, if_neg (by simpa using hne), Nat.add_zero, hcount]
        · intro other hmem
          apply updateStats_ne_none.mpr
          rcases List.mem_append.mp hmem with hmem | hmem
          · exact h.known other hmem
          · obtain rfl := Call.mirror.inj (List.mem_singleton.mp hmem)
            exact hknown

/-- The calls without one of them. -/
theorem count_eraseIdx {calls : List Call} {i : ℕ} {call : Call} (hi : calls[i]? = some call)
    (other : Call) :
    calls.count other = (calls.eraseIdx i).count other + if call = other then 1 else 0 := by
  obtain ⟨hlt, rfl⟩ := List.getElem?_eq_some_iff.mp hi
  rw [← (List.getElem_cons_eraseIdx_perm hlt).count_eq other, List.count_cons]
  simp only [beq_iff_eq]

theorem length_eraseIdx {calls : List Call} {i : ℕ} {call : Call} (hi : calls[i]? = some call) :
    calls.length = (calls.eraseIdx i).length + 1 := by
  obtain ⟨hlt, -⟩ := List.getElem?_eq_some_iff.mp hi
  rw [List.length_eraseIdx_of_lt hlt]
  omega

theorem Kept.answerServer {s : State} (h : Kept s) {i : ℕ} (hi : s.calls[i]? = some .server) :
    Kept (s.finish i) := by
  constructor
  · show s.activeRequests - 1 = ((s.calls.eraseIdx i).length : ℤ)
    rw [h.activeRequests_eq, length_eraseIdx hi]
    omega
  · intro url stats hstats
    show _ = ((s.calls.eraseIdx i).count (.mirror url) : ℤ)
    rw [h.inFlight_eq url stats hstats, count_eraseIdx hi (.mirror url), if_neg Call.noConfusion]
    rfl
  · intro url hmem
    exact h.known url (List.mem_of_mem_eraseIdx hmem)

theorem Kept.answerMirror {s : State} (h : Kept s) {i : ℕ} {url : GoString}
    (hi : s.calls[i]? = some (.mirror url)) : Kept (answer i .ok s) := by
  rw [answer, hi]
  constructor
  · show s.activeRequests - 1 = ((s.calls.eraseIdx i).length : ℤ)
    rw [h.activeRequests_eq, length_eraseIdx hi]
    omega
  · intro other stats hstats
    obtain ⟨old, hold, rfl⟩ := updateStats_eq_some hstats
    show _ = ((s.calls.eraseIdx i).count (.mirror other) : ℤ)
    have hcount := h.inFlight_eq other old hold
    rw [count_eraseIdx hi (.mirror other)] at hcount
    by_cases heq : other = url
    · subst heq
      rw [if_pos rfl] at hcount
      rw [if_pos rfl]
      show old.inFlightRequests - 1 = _
      omega
    · rw [if_neg fun hcall => heq (Call.mirror.inj hcall).symm] at hcount
      rw [if_neg heq]
      omega
  · intro other hmem
    apply updateStats_ne_none.mpr
    exact h.known other (List.mem_of_mem_eraseIdx hmem)

theorem Kept.next {s : State} (h : Kept s) {event : Event} (hcounted : Counted event s) :
    Kept (next event s) := by
  cases event with
  | refreshMirrorList mirrorList => exact h.refreshMirrorList mirrorList
  | fetchBlob pick => exact h.fetchBlob pick hcounted
  | answer i outcome =>
      show Kept (answer i outcome s)
      cases hi : s.calls[i]? with
      | none =>
          rw [answer, hi]
          exact h
      | some call =>
          cases call with
          | server =>
              rw [answer, hi]
              exact h.answerServer hi
          | mirror url =>
              obtain rfl : outcome = .ok := hcounted url hi
              exact h.answerMirror hi

/-- A request to a mirror that fails is counted as one in flight for ever. -/
theorem not_exact_failed {s : State} (h : Kept s) {i : ℕ} {url : GoString} {outcome : Outcome}
    (hi : s.calls[i]? = some (.mirror url)) (hfailed : outcome ≠ .ok) :
    ¬ Exact (answer i outcome s) := by
  intro hexact
  obtain ⟨hlt, hget⟩ := List.getElem?_eq_some_iff.mp hi
  have hmem : Call.mirror url ∈ s.calls := hget ▸ List.getElem_mem hlt
  obtain ⟨old, hold⟩ := Option.ne_none_iff_exists'.mp (h.known url hmem)
  have hbefore := h.inFlight_eq url old hold
  have hpositive : 0 < s.calls.count (.mirror url) := List.count_pos_iff.mpr hmem
  -- afterwards the call waits for the server, and the counter is the same
  have hcalls : (answer i outcome s).calls = s.calls.set i .server := by
    rw [answer, hi]
    cases outcome with
    | ok => exact absurd rfl hfailed
    | badStatus => rfl
    | rejected => rfl
  have hstats : ∃ stats, (answer i outcome s).mirrorPerformance url = some stats ∧
      stats.inFlightRequests = old.inFlightRequests := by
    rw [answer, hi]
    cases outcome with
    | ok => exact absurd rfl hfailed
    | badStatus =>
        refine ⟨{ old with errorCount := old.errorCount + 1 }, ?_, rfl⟩
        show (if url = url then _ else _) = _
        rw [if_pos rfl, hold]
        rfl
    | rejected => exact ⟨old, hold, rfl⟩
  obtain ⟨stats, hstats, hsame⟩ := hstats
  have hafter := hexact.inFlight_eq url stats hstats
  rw [hcalls, List.count_set hlt, hget] at hafter
  have hserver : (Call.server == Call.mirror url) = false := rfl
  rw [beq_self_eq_true, if_pos rfl, hserver, if_neg Bool.false_ne_true] at hafter
  omega

theorem counted_of_exact {s : State} (h : Kept s) {event : Event} (hexact : Exact (next event s)) :
    Counted event s := by
  cases event with
  | refreshMirrorList mirrorList => trivial
  | fetchBlob pick =>
      intro hnil
      have hactive := hexact.activeRequests_eq
      rw [MirrorManager.next, fetchBlob, if_pos hnil] at hactive
      change s.activeRequests = ((s.calls ++ [Call.server]).length : ℤ) at hactive
      rw [h.activeRequests_eq, List.length_append, List.length_singleton] at hactive
      omega
  | answer i outcome =>
      intro url hi
      by_contra hfailed
      exact not_exact_failed h hi hfailed hexact

/-- The counters are exact throughout a run if and only if every call finds a mirror
configured and every mirror that is asked answers with success. -/
theorem counters_exact_iff (volume : GoString) (events : List Event) :
    Throughout next Exact events (new volume) ↔ Each next Counted events (new volume) :=
  throughout_iff_each next (fun _ h => h.exact) (fun _ _ h hcounted => h.next hcounted)
    (fun _ _ h hexact => counted_of_exact h hexact) events (kept_new volume)

/-- Without mirrors, a call that has been answered leaves `activeRequests` at `-1`. -/
theorem counters_drift :
    ¬ Throughout next Exact [.fetchBlob 0, .answer 0 .ok] (new "files".toList) := by
  intro h
  have hlast : Exact (next (.answer 0 .ok) (next (.fetchBlob 0) (new "files".toList))) := h.2.2
  exact absurd hlast.activeRequests_nonneg (by decide)

end MirrorManager

end Grits
