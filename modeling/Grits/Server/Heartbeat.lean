import Grits.Server.TrackerRegistry

/-!
# The heartbeats of a peer

`PeerModule.heartbeatLoop` sends a heartbeat at nine tenths of the interval that the tracker
announces, in whole seconds.  The tracker looks every minute for peers that it has not heard of
for five minutes, whatever interval it announces.

A peer registers, waits until its certificate is warmed up, and then ticks; messages take no
time.  Checks and ticks come in the order of their times, and either way where these are the
same.
-/

namespace Grits

namespace Heartbeat

open Tracker Runs

/-! ## The model -/

/-- `time.Second` -/
def second : Int64 := 1000000000

/-- The interval of the ticker that `PeerModule.heartbeatLoop` starts. -/
def tickerInterval (heartbeatSec : Int64) : Int64 :=
  if 0 < heartbeatSec then heartbeatSec * 9 / 10 * second else 300 * second

structure PeerModule where
  heartbeatSec : Int64

/-- The end of `PeerModule.registerWithTracker`, with the interval that the ticker is reset to. -/
def PeerModule.registered (pm : PeerModule) (response : Tracker.Response) :
    PeerModule × Option Int64 :=
  if 0 < response.heartbeatSec ∧ pm.heartbeatSec ≠ response.heartbeatSec then
    (⟨response.heartbeatSec⟩, some (response.heartbeatSec * 9 / 10 * second))
  else (pm, none)

/-- The tracker and one peer, with the times of the next tick and of the next check. -/
structure Liveness where
  tm : TrackerModule
  pm : PeerModule
  interval : Int64
  nextTick : ℤ
  nextCheck : ℤ

/-- `time.NewTicker(60 * time.Second)` -/
def checkInterval : ℤ := 60 * 10 ^ 9

section

variable (m : CaseMapping) (files : CertFiles) (r : Request)

/-- The peer registers with the tracker at the time `now` and starts its ticker when the
certificate is warmed up. -/
def start (tm : TrackerModule) (now : ℤ) (warmUp : ℕ) (nextCheck : ℤ)
    (response : Tracker.Response) : Liveness :=
  let pm := ((⟨0⟩ : PeerModule).registered response).1
  let interval := tickerInterval pm.heartbeatSec
  ⟨(registerPeerHandler m tm files now r).1, pm, interval, now + warmUp + interval.toInt,
    nextCheck⟩

/-- A tick of `PeerModule.heartbeatLoop` -/
def tick (s : Liveness) : Liveness :=
  let result := registerPeerHandler m s.tm files s.nextTick r
  match result.2 with
  | .error _ => { s with tm := result.1, nextTick := s.nextTick + s.interval.toInt }
  | .ok response =>
      let (pm, reset) := s.pm.registered response
      let interval := reset.getD s.interval
      { s with tm := result.1, pm, interval, nextTick := s.nextTick + interval.toInt }

/-- A tick of `TrackerModule.checkPeerActivity` -/
def check (s : Liveness) : Liveness :=
  { s with
    tm := updatePeerActivity s.tm s.nextCheck
    nextCheck := s.nextCheck + checkInterval }

/-- What comes next, by time. -/
inductive Step : Liveness → Liveness → Prop
  | tick {s : Liveness} (h : s.nextTick ≤ s.nextCheck) : Step s (tick m files r s)
  | check {s : Liveness} (h : s.nextCheck ≤ s.nextTick) : Step s (check s)

/-- The entry of the peer is there and active. -/
def Active (s : Liveness) : Prop :=
  ∃ request ∈ r.body, ∃ peer,
    s.tm.peers (m.lower request.peerName) = some peer ∧ peer.isActive = true

/-- The ticker has a positive interval, and the peer is active in every state of every run,
wherever the checks of the tracker fall. -/
def StaysActive (tm : TrackerModule) (now : ℤ) (warmUp : ℕ) (response : Tracker.Response) : Prop :=
  0 < tickerInterval response.heartbeatSec ∧
    ∀ nextCheck, now < nextCheck → nextCheck ≤ now + checkInterval →
      ∀ past s, Run (· = start m files r tm now warmUp nextCheck response) (Step m files r) past s →
        ∀ u ∈ s :: past, Active m r u

end

/-- The interval of the heartbeats is a second or more, and with the time to warm up at most
five minutes.  Where it does not fit the 64 bits of a `time.Duration`, this is meant of what
is left of it. -/
def Timely (heartbeatSec : ℤ) (warmUp : ℕ) : Prop :=
  if heartbeatSec ≤ 10248191152 then
    2 ≤ heartbeatSec ∧ (warmUp : ℤ) + heartbeatSec * 9 / 10 * 10 ^ 9 ≤ 300 * 10 ^ 9
  else
    let wrapped : ℤ :=
      Int.bmod (Int.tdiv (Int.bmod (heartbeatSec * 9) (2 ^ 64)) 10 * 10 ^ 9) (2 ^ 64)
    0 < wrapped ∧ (warmUp : ℤ) + wrapped ≤ 300 * 10 ^ 9

/-! ## The interval -/

theorem toInt_interval (heartbeatSec : Int64) :
    (heartbeatSec * 9 / 10 * second).toInt =
      Int.bmod (Int.tdiv (Int.bmod (heartbeatSec.toInt * 9) (2 ^ 64)) 10 * 10 ^ 9) (2 ^ 64) := by
  rw [Int64.toInt_mul, Int64.toInt_div_of_ne_right _ _ (by decide), Int64.toInt_mul]
  rfl

/-- Up to the last interval that fits, nothing wraps around. -/
theorem wrapped_eq {h : ℤ} (hpos : 0 < h) (hsmall : h ≤ 10248191152) :
    Int.bmod (Int.tdiv (Int.bmod (h * 9) (2 ^ 64)) 10 * 10 ^ 9) (2 ^ 64) = h * 9 / 10 * 10 ^ 9 := by
  have hnine : Int.bmod (h * 9) (2 ^ 64) = h * 9 := by
    apply Int.bmod_eq_of_le <;> omega
  rw [hnine, Int.tdiv_eq_ediv_of_nonneg (by omega)]
  apply Int.bmod_eq_of_le <;> omega

theorem timely_iff {heartbeatSec : Int64} (hpos : 0 < heartbeatSec) (warmUp : ℕ) :
    Timely heartbeatSec.toInt warmUp ↔ 0 < (tickerInterval heartbeatSec).toInt ∧
      (warmUp : ℤ) + (tickerInterval heartbeatSec).toInt ≤ inactiveAfter := by
  have hinterval : tickerInterval heartbeatSec = heartbeatSec * 9 / 10 * second := if_pos hpos
  rw [Int64.lt_iff_toInt_lt] at hpos
  change 0 < heartbeatSec.toInt at hpos
  rw [hinterval, toInt_interval, Timely, inactiveAfter]
  split
  next hsmall =>
    rw [wrapped_eq hpos hsmall]
    omega
  next => rfl

/-! ## One step -/

section

variable {m : CaseMapping} {files : CertFiles} {r : Request} {request : RegisterRequest}
  {peerIP : GoString} {tm : TrackerModule}

/-- A request that the tracker accepts. -/
def Accepted (files : CertFiles) (r : Request) (request : RegisterRequest) (peerIP : GoString)
    (tm : TrackerModule) : Prop :=
  checkRequest r = .ok (request, peerIP) ∧ authorized tm files request (clientCert r) = true

theorem Accepted.registerPeerHandler_eq (h : Accepted files r request peerIP tm) (now : ℤ) :
    registerPeerHandler m tm files now r =
      ((updateRegistry m tm now request peerIP).1,
        .ok (updateRegistry m tm now request peerIP).2) := by
  unfold registerPeerHandler
  rw [h.1]
  exact if_pos h.2

theorem exists_accepted {now : ℤ} {response : Tracker.Response}
    (h : (registerPeerHandler m tm files now r).2 = .ok response) :
    ∃ request peerIP, Accepted files r request peerIP tm ∧
      response = (updateRegistry m tm now request peerIP).2 := by
  unfold registerPeerHandler at h
  split at h
  next => cases h
  next request peerIP hcheck =>
    split at h
    next hauthorized => exact ⟨request, peerIP, ⟨hcheck, hauthorized⟩, (Except.ok.inj h).symm⟩
    next => cases h

theorem updateRegistry_entry (now : ℤ) : ∃ peer,
    (updateRegistry m tm now request peerIP).1.peers (m.lower request.peerName) = some peer ∧
      peer.isActive = true ∧ peer.lastHeartbeat = now :=
  ⟨_, Function.update_self _ _ _, rfl, rfl⟩

/-- The tracker has announced the interval `h`, and the peer ticks by it. -/
structure Announced (files : CertFiles) (r : Request) (request : RegisterRequest)
    (peerIP : GoString) (h : Int64) (s : Liveness) : Prop where
  accepted : Accepted files r request peerIP s.tm
  config : s.tm.config.heartbeatIntervalSec = h
  heartbeatSec : s.pm.heartbeatSec = h
  interval : s.interval = tickerInterval h

/-- The entry of the peer is active, and its next heartbeat is in time. -/
def InTime (m : CaseMapping) (request : RegisterRequest) (s : Liveness) : Prop :=
  ∃ peer, s.tm.peers (m.lower request.peerName) = some peer ∧ peer.isActive = true ∧
    s.nextTick ≤ peer.lastHeartbeat + inactiveAfter

variable {h : Int64} {s : Liveness}

theorem Announced.registered_eq (ha : Announced files r request peerIP h s) :
    s.pm.registered (updateRegistry m s.tm s.nextTick request peerIP).2 = (s.pm, none) := by
  apply if_neg
  rintro ⟨-, hne⟩
  exact hne (ha.heartbeatSec.trans ha.config.symm)

/-- A tick renews the entry, and nothing else changes. -/
theorem Announced.tick_eq (ha : Announced files r request peerIP h s) :
    tick m files r s =
      { s with
        tm := (updateRegistry m s.tm s.nextTick request peerIP).1
        nextTick := s.nextTick + (tickerInterval h).toInt } := by
  unfold tick
  simp only [ha.accepted.registerPeerHandler_eq, ha.registered_eq, Option.getD_none]
  rw [ha.interval]

theorem Announced.tick (ha : Announced files r request peerIP h s) :
    Announced files r request peerIP h (tick m files r s) := by
  rw [ha.tick_eq]
  exact ⟨ha.accepted, ha.config, ha.heartbeatSec, ha.interval⟩

theorem Announced.check (ha : Announced files r request peerIP h s) :
    Announced files r request peerIP h (check s) :=
  ⟨ha.accepted, ha.config, ha.heartbeatSec, ha.interval⟩

theorem InTime.tick (ha : Announced files r request peerIP h s)
    (hinterval : (tickerInterval h).toInt ≤ inactiveAfter) : InTime m request (tick m files r s) := by
  rw [ha.tick_eq]
  obtain ⟨peer, hpeer, hactive, hlast⟩ :=
    @updateRegistry_entry m request peerIP s.tm s.nextTick
  refine ⟨peer, hpeer, hactive, ?_⟩
  show s.nextTick + (tickerInterval h).toInt ≤ peer.lastHeartbeat + inactiveAfter
  omega

/-- A check that comes before the next tick finds the peer's last heartbeat recent enough. -/
theorem InTime.check (ht : InTime m request s) (hfirst : s.nextCheck ≤ s.nextTick) :
    InTime m request (check s) := by
  obtain ⟨peer, hpeer, hactive, htick⟩ := ht
  have hchecked : peer.checked s.nextCheck = peer := by
    apply if_neg
    omega
  refine ⟨peer, ?_, hactive, htick⟩
  show (s.tm.peers (m.lower request.peerName)).map (PeerInfo.checked s.nextCheck) = some peer
  rw [hpeer, Option.map_some, hchecked]

/-! ## Checks in a row -/

theorem iterate_check (n : ℕ) : (check^[n] s).nextTick = s.nextTick ∧
    (check^[n] s).nextCheck = s.nextCheck + n * checkInterval := by
  induction n with
  | zero => simp
  | succ n ih =>
      rw [Function.iterate_succ_apply']
      refine ⟨ih.1, ?_⟩
      show (check^[n] s).nextCheck + checkInterval = _
      rw [ih.2]
      push_cast
      ring

/-- No check changes when the last heartbeat was. -/
theorem iterate_check_lastHeartbeat {key : GoString} {peer : PeerInfo}
    (hpeer : s.tm.peers key = some peer) (n : ℕ) : ∃ later,
    (check^[n] s).tm.peers key = some later ∧ later.lastHeartbeat = peer.lastHeartbeat := by
  induction n with
  | zero => exact ⟨peer, hpeer, rfl⟩
  | succ n ih =>
      obtain ⟨later, hlater, hlast⟩ := ih
      rw [Function.iterate_succ_apply']
      refine ⟨later.checked (check^[n] s).nextCheck, ?_, ?_⟩
      · show ((check^[n] s).tm.peers key).map _ = _
        rw [hlater]
        rfl
      · unfold PeerInfo.checked
        split
        next => exact hlast
        next => exact hlast

/-- As long as the next tick is not due, the checks are a run. -/
theorem run_checks {begin : Liveness → Prop} {past : List Liveness}
    (hrun : Run begin (Step m files r) past s) (n : ℕ)
    (hbefore : s.nextCheck + n * checkInterval ≤ s.nextTick + checkInterval) :
    ∃ past, Run begin (Step m files r) past (check^[n] s) := by
  induction n with
  | zero => exact ⟨past, hrun⟩
  | succ n ih =>
      have hstep : s.nextCheck + n * checkInterval ≤ s.nextTick := by
        push_cast at hbefore
        linarith
      have hinterval : 0 ≤ checkInterval := by decide
      obtain ⟨earlier, hearlier⟩ := ih (by omega)
      rw [Function.iterate_succ_apply']
      refine ⟨_, .step hearlier (.check ?_)⟩
      rw [(iterate_check n).1, (iterate_check n).2]
      exact hstep

/-! ## The peer and its tracker -/

/-- The peer starts its ticker with the interval that the tracker announces. -/
theorem start_eq (hpos : 0 < tm.config.heartbeatIntervalSec)
    (haccepted : Accepted files r request peerIP tm) (now : ℤ) (warmUp : ℕ) (nextCheck : ℤ) :
    start m files r tm now warmUp nextCheck (updateRegistry m tm now request peerIP).2 =
      ⟨(updateRegistry m tm now request peerIP).1, ⟨tm.config.heartbeatIntervalSec⟩,
        tickerInterval tm.config.heartbeatIntervalSec,
        now + warmUp + (tickerInterval tm.config.heartbeatIntervalSec).toInt, nextCheck⟩ := by
  have hzero : (0 : Int64) ≠ tm.config.heartbeatIntervalSec := by
    intro hzero
    rw [← hzero] at hpos
    exact absurd hpos (by decide)
  have hregistered : (PeerModule.mk 0).registered (updateRegistry m tm now request peerIP).2 =
      (⟨tm.config.heartbeatIntervalSec⟩, some (tm.config.heartbeatIntervalSec * 9 / 10 * second)) :=
    if_pos ⟨hpos, hzero⟩
  unfold start
  rw [hregistered, haccepted.registerPeerHandler_eq]

/-- With an interval that is short enough, every run keeps the entry active. -/
theorem active_of_timely (hpos : 0 < tm.config.heartbeatIntervalSec)
    (haccepted : Accepted files r request peerIP tm) {now : ℤ} {warmUp : ℕ} {nextCheck : ℤ}
    (hinterval : (warmUp : ℤ) + (tickerInterval tm.config.heartbeatIntervalSec).toInt ≤ inactiveAfter)
    {past : List Liveness}
    (hrun : Run (· = start m files r tm now warmUp nextCheck
      (updateRegistry m tm now request peerIP).2) (Step m files r) past s) :
    ∀ u ∈ s :: past, Active m r u := by
  have hkept : ∀ u ∈ s :: past,
      Announced files r request peerIP tm.config.heartbeatIntervalSec u ∧ InTime m request u := by
    refine hrun.invariant_mem (I := fun u =>
      Announced files r request peerIP tm.config.heartbeatIntervalSec u ∧ InTime m request u) ?_ ?_
    · rintro u rfl
      rw [start_eq hpos haccepted]
      obtain ⟨peer, hpeer, hactive, hlast⟩ := @updateRegistry_entry m request peerIP tm now
      refine ⟨⟨haccepted, rfl, rfl, rfl⟩, peer, hpeer, hactive, ?_⟩
      show now + warmUp + (tickerInterval tm.config.heartbeatIntervalSec).toInt ≤ _
      omega
    · rintro u v ⟨hu, htime⟩ hstep
      cases hstep with
      | tick _ => exact ⟨hu.tick, .tick hu (by omega)⟩
      | check hfirst => exact ⟨hu.check, htime.check hfirst⟩
  intro u hu
  obtain ⟨-, peer, hpeer, hactive, -⟩ := hkept u hu
  exact ⟨request, checkRequest_body haccepted.1, peer, hpeer, hactive⟩

/-- With a longer one, the sixth check comes too soon if the first came right after the
registration. -/
theorem exists_inactive_of_late (hpos : 0 < tm.config.heartbeatIntervalSec)
    (haccepted : Accepted files r request peerIP tm) (now : ℤ) {warmUp : ℕ}
    (hlate : inactiveAfter < (warmUp : ℤ) + (tickerInterval tm.config.heartbeatIntervalSec).toInt) :
    ∃ past s, Run (· = start m files r tm now warmUp (now + 1)
      (updateRegistry m tm now request peerIP).2) (Step m files r) past s ∧ ¬ Active m r s := by
  obtain ⟨peer, hpeer, -, hlast⟩ := @updateRegistry_entry m request peerIP tm now
  rw [start_eq hpos haccepted]
  generalize hfirst : Liveness.mk _ _ _ _ _ = first
  have hentry : first.tm.peers (m.lower request.peerName) = some peer := by
    rw [← hfirst]
    exact hpeer
  have htick : first.nextTick =
      now + warmUp + (tickerInterval tm.config.heartbeatIntervalSec).toInt := by rw [← hfirst]
  have hcheck : first.nextCheck = now + 1 := by rw [← hfirst]
  have hsix : first.nextCheck + (6 : ℕ) * checkInterval ≤ first.nextTick + checkInterval := by
    rw [htick, hcheck]
    simp only [inactiveAfter, checkInterval] at hlate ⊢
    push_cast
    omega
  have hbegin : Run (· = first) (Step m files r) [] first := .start rfl
  obtain ⟨past, hrun⟩ := run_checks hbegin 6 hsix
  refine ⟨past, _, hrun, ?_⟩
  rintro ⟨request', hbody, later, hlater, hactive⟩
  have hsame : request' = request := by
    have hown := checkRequest_body haccepted.1
    rw [Option.mem_def.mp hbody] at hown
    exact Option.some.inj hown
  obtain ⟨fifth, hfifth, hfifthLast⟩ := iterate_check_lastHeartbeat hentry 5
  rw [hsame, Function.iterate_succ_apply'] at hlater
  have hchecked : later = fifth.checked (check^[5] first).nextCheck := by
    change ((check^[5] first).tm.peers _).map _ = some later at hlater
    rw [hfifth] at hlater
    exact (Option.some.inj hlater).symm
  have hold : fifth.lastHeartbeat < (check^[5] first).nextCheck - inactiveAfter := by
    rw [hfifthLast, hlast, (iterate_check 5).2, hcheck]
    simp only [inactiveAfter, checkInterval]
    push_cast
    omega
  rw [hchecked, PeerInfo.checked, if_pos hold] at hactive
  cases hactive

theorem staysActive_iff (hpos : 0 < tm.config.heartbeatIntervalSec)
    (haccepted : Accepted files r request peerIP tm) (now : ℤ) (warmUp : ℕ) :
    StaysActive m files r tm now warmUp (updateRegistry m tm now request peerIP).2 ↔
      Timely tm.config.heartbeatIntervalSec.toInt warmUp := by
  have hpositive : 0 < tickerInterval tm.config.heartbeatIntervalSec ↔
      0 < (tickerInterval tm.config.heartbeatIntervalSec).toInt := Int64.lt_iff_toInt_lt
  rw [timely_iff hpos]
  constructor
  · rintro ⟨hinterval, hactive⟩
    refine ⟨hpositive.mp hinterval, ?_⟩
    by_contra hlate
    obtain ⟨past, s, hrun, hinactive⟩ :=
      exists_inactive_of_late (m := m) hpos haccepted now (not_le.mp hlate)
    have hcheck : now + 1 ≤ now + checkInterval := by
      simp only [checkInterval]
      omega
    exact hinactive (hactive (now + 1) (by omega) hcheck past s hrun s List.mem_cons_self)
  · rintro ⟨hinterval, htimely⟩
    exact ⟨hpositive.mpr hinterval, fun _ _ _ _ _ hrun => active_of_timely hpos haccepted htimely hrun⟩

theorem newTrackerModule_heartbeatIntervalSec {serverDir : GoString} {config : TrackerModuleConfig}
    (hnew : newTrackerModule serverDir config = .ok tm) (hpos : 0 < config.heartbeatIntervalSec) :
    tm.config.heartbeatIntervalSec = config.heartbeatIntervalSec := by
  unfold newTrackerModule at hnew
  split at hnew
  next => cases hnew
  next =>
    cases hnew
    exact if_neg (Int64.not_le.mpr hpos)

/-- Whatever the tracker has gone through before the peer registers, its entry stays active
exactly when the configured interval, with the time to warm up, is short enough. -/
theorem staysActive_iff_timely (m : CaseMapping) (serverDir : GoString)
    (config : TrackerModuleConfig) (hnew : newTrackerModule serverDir config = .ok tm)
    (hconfig : 1 ≤ config.heartbeatIntervalSec) (files₀ files : CertFiles) (events : List Event)
    (now : ℤ) (r : Request) {response : Tracker.Response}
    (haccepted : (registerPeerHandler m (after m events ⟨tm, files₀, [], []⟩).tm files now r).2 =
      .ok response) (warmUp : ℕ) :
    StaysActive m files r (after m events ⟨tm, files₀, [], []⟩).tm now warmUp response ↔
      Timely config.heartbeatIntervalSec.toInt warmUp := by
  have hpos : 0 < config.heartbeatIntervalSec := by
    rw [Int64.le_iff_toInt_le] at hconfig
    rw [Int64.lt_iff_toInt_lt]
    exact hconfig
  have hannounced : (after m events ⟨tm, files₀, [], []⟩).tm.config.heartbeatIntervalSec =
      config.heartbeatIntervalSec := by
    rw [after_config]
    exact newTrackerModule_heartbeatIntervalSec hnew hpos
  obtain ⟨request, peerIP, hrequest, rfl⟩ := exists_accepted haccepted
  rw [staysActive_iff (by rwa [hannounced]) hrequest now warmUp, hannounced]

/-- The tracker of the examples with another interval. -/
def announcing (heartbeatIntervalSec : Int64) : TrackerModule :=
  { exampleTracker with config := { exampleTracker.config with heartbeatIntervalSec } }

/-- Its answer when `alice` registers. -/
def aliceResponse (heartbeatSec : Int64) : Tracker.Response :=
  ⟨"success".toList, "alice.cache.mydomain.com".toList, "new".toList, heartbeatSec⟩

theorem accepted_alice (heartbeatSec : Int64) :
    Accepted twoPeers (registration "alice".toList [2]) ⟨"alice".toList, -1⟩ "10.0.0.7".toList
      (announcing heartbeatSec) := by
  have hauthorized : authorized exampleTracker twoPeers ⟨"alice".toList, -1⟩
      (clientCert (registration "alice".toList [2])) = true := by decide
  exact ⟨rfl, hauthorized⟩

/-- The default interval, with half a minute to warm up. -/
theorem staysActive_alice : StaysActive .asciiOnly twoPeers (registration "alice".toList [2])
    (announcing 300) 0 (30 * 10 ^ 9) (aliceResponse 300) := by
  have hnew : newTrackerModule "/srv/grits".toList (announcing 300).config = .ok (announcing 300) :=
    rfl
  have hanswer : (registerPeerHandler .asciiOnly (announcing 300) twoPeers 0
      (registration "alice".toList [2])).2 = .ok (aliceResponse 300) := by
    rw [(accepted_alice 300).registerPeerHandler_eq]
    rfl
  refine (staysActive_iff_timely .asciiOnly "/srv/grits".toList (announcing 300).config hnew
    (by decide) twoPeers twoPeers [] 0 _ hanswer _).mpr ?_
  show Timely 300 (30 * 10 ^ 9)
  rw [Timely, if_pos (by decide)]
  decide

/-- One second leaves no interval at all, and ten minutes one that is too long. -/
theorem not_staysActive_alice :
    ¬ StaysActive .asciiOnly twoPeers (registration "alice".toList [2]) (announcing 1) 0 0
        (aliceResponse 1) ∧
      ¬ StaysActive .asciiOnly twoPeers (registration "alice".toList [2]) (announcing 600) 0 0
        (aliceResponse 600) := by
  constructor
  · rintro ⟨hpos, -⟩
    exact absurd hpos (by decide)
  · have hlate := staysActive_iff (m := .asciiOnly) (by decide : 0 < (600 : Int64))
      (accepted_alice 600) 0 0
    refine fun hactive => absurd (hlate.mp hactive) ?_
    show ¬ Timely 600 0
    rw [Timely, if_pos (by decide)]
    decide

end

end Heartbeat

end Grits
