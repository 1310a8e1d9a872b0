import Grits.Library.Runs
import Grits.Server.Tracker

/-!
# Who writes the registry of the tracker

`RegisterPeerHandler` files an entry under the lower-case name, but looks for the certificate
under the name as it was sent.  Along a run of requests, checks and changes that the operator
makes to the certificates, a record is kept of the certificates that were looked up and of the
entries that were written.
-/

namespace Grits

namespace Tracker

open SlashPath Runs

/-! ## Runs of the tracker -/

/-- A certificate that is looked up for a request. -/
structure Lookup where
  peerName : GoString
  path : GoString

/-- An entry that a request creates or updates, with the certificate of the requester and the
one authorised at that time for the peer with that key. -/
structure Write where
  key : GoString
  requester : Option PublicKey
  authorised : Option PublicKey
  deriving DecidableEq

/-- The tracker, the certificates of its operator, and the record of the run. -/
structure Site where
  tm : TrackerModule
  files : CertFiles
  lookups : List Lookup
  writes : List Write

inductive Event
  | register (now : ℤ) (r : Request)
  | operator (files : CertFiles)
  | check (now : ℤ)

/-- The lookup that `RegisterPeerHandler` makes for a request. -/
def lookup (tm : TrackerModule) (r : Request) : Option Lookup :=
  match checkRequest r, tm.config.overrideCertVerification, clientCert r with
  | .ok (request, _), none, some _ =>
      some ⟨request.peerName, authFilePath tm.serverDir request.peerName⟩
  | _, _, _ => none

section

variable (m : CaseMapping)

/-- The entry that `RegisterPeerHandler` writes for a request. -/
def write (tm : TrackerModule) (files : CertFiles) (r : Request) : Option Write :=
  match checkRequest r with
  | .error _ => none
  | .ok (request, _) =>
      if authorized tm files request (clientCert r) then
        let key := m.lower request.peerName
        some ⟨key, clientCert r, files (authFilePath tm.serverDir key)⟩
      else none

def next : Event → Site → Site
  | .register now r, s =>
      { s with
        tm := (registerPeerHandler m s.tm s.files now r).1
        lookups := (lookup s.tm r).toList ++ s.lookups
        writes := (write m s.tm s.files r).toList ++ s.writes }
  | .operator files, s => { s with files := files }
  | .check now, s => { s with tm := updatePeerActivity s.tm now }

/-- The tracker after a sequence of events. -/
def after (events : List Event) (s : Site) : Site := events.foldl (fun s e => next m e s) s

/-- The directory of the authorised peers. -/
def peersDir (serverDir : GoString) : GoString := serverPath serverDir "var/certs/peers".toList

/-- Entries are written with their own certificate only, names with one key share it, and none
is looked for elsewhere. -/
structure Authentic (s : Site) : Prop where
  writes : ∀ w ∈ s.writes, ∃ cert, w.requester = some cert ∧ w.authorised = some cert
  sameKey : ∀ a ∈ s.lookups, ∀ b ∈ s.lookups, m.lower a.peerName = m.lower b.peerName →
    s.files a.path = s.files b.path
  inside : ∀ a ∈ s.lookups, peersDir s.tm.serverDir ++ ['/'] <+: a.path

/-- What is left of a name when its dots are resolved is lower-case and does not climb. -/
def OwnPath (name : GoString) : Prop :=
  ∀ part ∈ resolved name, m.lower part = part ∧ part ≠ ['.', '.']

def OwnPaths : Event → Site → Prop
  | .register _ r, _ => ∀ request ∈ r.body, OwnPath m request.peerName
  | _, _ => True

end

/-! ## What a request does -/

section

variable {m : CaseMapping} {tm : TrackerModule} {files : CertFiles} {r : Request}

theorem checkRequest_body {request : RegisterRequest} {peerIP : GoString}
    (h : checkRequest r = .ok (request, peerIP)) : r.body = some request := by
  unfold checkRequest at h
  split at h
  next => cases h
  next =>
    cases hbody : r.body with
    | none => simp [hbody] at h
    | some request' =>
        simp only [hbody] at h
        split at h
        next => cases h
        next =>
          cases hhost : r.remoteHost with
          | none => simp [hhost] at h
          | some host =>
              simp only [hhost, Except.ok.injEq, Prod.mk.injEq] at h
              rw [h.1]

/-- A key passes only for itself. -/
theorem eq_of_verifyPeerAuthorization {path : GoString} {key : PublicKey}
    (h : verifyPeerAuthorization files path key = true) : files path = some key := by
  unfold verifyPeerAuthorization at h
  split at h
  next n e n' e' hfile =>
    rw [hfile]
    simp only [Bool.and_eq_true, decide_eq_true_eq] at h
    rw [h.1, h.2]
  next x y curve x' y' curve' hfile =>
    rw [hfile]
    simp only [Bool.and_eq_true, decide_eq_true_eq] at h
    rw [h.1.1, h.1.2, h.2]
  next key key' hfile =>
    rw [hfile, of_decide_eq_true h]
  next => cases h

theorem lookup_eq_some {l : Lookup} (h : lookup tm r = some l) :
    ∃ request ∈ r.body, l = ⟨request.peerName, authFilePath tm.serverDir request.peerName⟩ := by
  unfold lookup at h
  split at h
  next request peerIP _ hcheck _ _ =>
    exact ⟨request, checkRequest_body hcheck, (Option.some.inj h).symm⟩
  next => cases h

theorem write_eq_some {w : Write} (h : write m tm files r = some w)
    (hoverride : tm.config.overrideCertVerification = none) :
    ∃ request ∈ r.body, ∃ cert, w.requester = some cert ∧
      files (authFilePath tm.serverDir request.peerName) = some cert ∧
        w.authorised = files (authFilePath tm.serverDir (m.lower request.peerName)) := by
  unfold write at h
  split at h
  next => cases h
  next request peerIP hcheck =>
    split at h
    next hauthorized =>
      cases h
      refine ⟨request, checkRequest_body hcheck, ?_⟩
      simp only [authorized, hoverride] at hauthorized
      cases hcert : clientCert r with
      | none => simp [hcert] at hauthorized
      | some cert =>
          rw [hcert] at hauthorized
          exact ⟨cert, rfl, eq_of_verifyPeerAuthorization hauthorized, rfl⟩
    next => cases h

/-- An entry changes only when it is written. -/
theorem registerPeerHandler_peers (now : ℤ) (key : GoString)
    (h : ∀ w ∈ write m tm files r, w.key ≠ key) :
    (registerPeerHandler m tm files now r).1.peers key = tm.peers key := by
  unfold write at h
  unfold registerPeerHandler
  split
  next => rfl
  next request peerIP hcheck =>
    simp only [hcheck] at h
    split
    next hauthorized =>
      rw [if_pos hauthorized] at h
      exact Function.update_of_ne (h _ rfl).symm _ _
    next => rfl

theorem registerPeerHandler_config (now : ℤ) :
    (registerPeerHandler m tm files now r).1.config = tm.config ∧
      (registerPeerHandler m tm files now r).1.serverDir = tm.serverDir := by
  unfold registerPeerHandler
  split
  next => exact ⟨rfl, rfl⟩
  next => split <;> exact ⟨rfl, rfl⟩

end

/-- The configuration is that of the start. -/
theorem after_config {m : CaseMapping} (events : List Event) (s : Site) :
    (after m events s).tm.config = s.tm.config := by
  induction events generalizing s with
  | nil => rfl
  | cons e events ih =>
      have hnext : (next m e s).tm.config = s.tm.config := by
        cases e with
        | register now r => exact (registerPeerHandler_config now).1
        | operator files => rfl
        | check now => rfl
      exact (ih (next m e s)).trans hnext

/-! ## The file of a certificate -/

/-- The directory of the peers as it is joined from its parts. -/
theorem exists_peersDir (serverDir : GoString) : ∃ base, kept (isRooted base) base ≠ [] ∧
    peersDir serverDir = clean base ∧
      ∀ name, getCertPath serverDir name = clean (base ++ '/' :: name) := by
  by_cases hdir : serverDir = []
  · subst hdir
    exact ⟨"var/certs/peers".toList, by decide, rfl, fun _ => rfl⟩
  · refine ⟨serverDir ++ '/' :: "var/certs/peers".toList, ?_, ?_, ?_⟩
    · have hsplit : split "var/certs/peers".toList =
          ["var".toList, "certs".toList, "peers".toList] := by decide
      rw [kept_append, hsplit, List.foldl_cons, List.foldl_cons, List.foldl_cons, List.foldl_nil,
        cleanStep.eq_def, if_neg (by decide), if_neg (by decide)]
      exact List.cons_ne_nil _ _
    · rw [peersDir, serverPath, joinClean, if_neg fun h => hdir h.1, if_neg hdir]
    · intro name
      rw [getCertPath, serverPath, joinClean, if_neg fun h => hdir h.1, if_neg hdir,
        List.append_assoc]
      rfl

theorem resolved_concat_name (name : GoString) {part : GoString} (hslash : '/' ∉ part)
    (hpart : part ≠ [] ∧ part ≠ ['.'] ∧ part ≠ ['.', '.']) :
    resolved (name ++ '/' :: part) = resolved name ++ [part] := by
  have hstep : cleanStep false (kept false name) part = part :: kept false name := by
    rw [cleanStep.eq_def, if_neg (not_or.mpr ⟨hpart.1, hpart.2.1⟩), if_neg hpart.2.2]
  rw [resolved, kept_append, split_of_slash_notMem hslash, List.foldl_cons, List.foldl_nil, hstep,
    List.reverse_cons]
  rfl

/-- The certificate of a name that does not climb is below the directory of the peers. -/
theorem authFilePath_eq (serverDir : GoString) {name : GoString}
    (hdots : ['.', '.'] ∉ resolved name) :
    authFilePath serverDir name =
      peersDir serverDir ++ '/' :: join (resolved name ++ ["fullchain.pem".toList]) := by
  obtain ⟨base, hbase, hdir, hpath⟩ := exists_peersDir serverDir
  have hne : clean (base ++ '/' :: name) ≠ [] := clean_ne_nil _
  have hresolved : resolved (name ++ '/' :: "fullchain.pem".toList) =
      resolved name ++ ["fullchain.pem".toList] :=
    resolved_concat_name name (by decide) (by decide)
  rw [authFilePath, hpath, joinClean, if_neg fun h => hne h.1, if_neg hne,
    clean_clean_append (by simp), List.append_assoc, List.cons_append, hdir, ← hresolved]
  apply clean_append hbase
  · rw [hresolved]
    simp
  · rw [hresolved, List.mem_append, not_or]
    exact ⟨hdots, by decide⟩

/-! ## Names that are their own -/

variable {m : CaseMapping}

theorem OwnPath.no_dots {name : GoString} (h : OwnPath m name) : ['.', '.'] ∉ resolved name :=
  fun hmem => (h _ hmem).2 rfl

theorem OwnPath.resolved_lower {name : GoString} (h : OwnPath m name) :
    resolved (m.lower name) = resolved name := by
  rw [SlashPath.resolved_lower]
  exact (List.map_congr_left fun part hpart => (h part hpart).1).trans (List.map_id _)

/-- The key and the name lead to the same certificate. -/
theorem OwnPath.authFilePath_lower {name : GoString} (h : OwnPath m name) (serverDir : GoString) :
    authFilePath serverDir (m.lower name) = authFilePath serverDir name := by
  have hdots : ['.', '.'] ∉ resolved (m.lower name) := by
    rw [h.resolved_lower]
    exact h.no_dots
  rw [authFilePath_eq serverDir hdots, authFilePath_eq serverDir h.no_dots, h.resolved_lower]

/-- Outside tests, the record of a run whose names are all their own. -/
structure Sound (m : CaseMapping) (s : Site) : Prop where
  override : s.tm.config.overrideCertVerification = none
  lookups : ∀ a ∈ s.lookups,
    OwnPath m a.peerName ∧ a.path = authFilePath s.tm.serverDir a.peerName
  writes : ∀ w ∈ s.writes, ∃ cert, w.requester = some cert ∧ w.authorised = some cert

theorem Sound.authentic {s : Site} (h : Sound m s) : Authentic m s := by
  constructor
  · exact h.writes
  · intro a ha b hb hkey
    obtain ⟨hown, hpath⟩ := h.lookups a ha
    obtain ⟨hown', hpath'⟩ := h.lookups b hb
    rw [hpath, hpath', ← hown.authFilePath_lower, hkey, hown'.authFilePath_lower]
  · intro a ha
    obtain ⟨hown, hpath⟩ := h.lookups a ha
    rw [hpath, authFilePath_eq _ hown.no_dots]
    exact ⟨join (resolved a.peerName ++ ["fullchain.pem".toList]), by simp⟩

theorem Sound.register {s : Site} (h : Sound m s) (now : ℤ) {r : Request}
    (hown : ∀ request ∈ r.body, OwnPath m request.peerName) :
    Sound m (next m (.register now r) s) := by
  obtain ⟨hconfig, hdir⟩ := @registerPeerHandler_config m s.tm s.files r now
  constructor
  · change (registerPeerHandler m s.tm s.files now r).1.config.overrideCertVerification = none
    rw [hconfig]
    exact h.override
  · change ∀ a ∈ (lookup s.tm r).toList ++ s.lookups, OwnPath m a.peerName ∧
      a.path = authFilePath (registerPeerHandler m s.tm s.files now r).1.serverDir a.peerName
    rw [hdir]
    intro a ha
    rcases List.mem_append.mp ha with ha | ha
    · obtain ⟨request, hbody, rfl⟩ := lookup_eq_some (Option.mem_toList.mp ha)
      exact ⟨hown request hbody, rfl⟩
    · exact h.lookups a ha
  · intro w hw
    rcases List.mem_append.mp hw with hw | hw
    · obtain ⟨request, hbody, cert, hrequester, hfile, hauthorised⟩ :=
        write_eq_some (Option.mem_toList.mp hw) h.override
      refine ⟨cert, hrequester, ?_⟩
      rw [hauthorised, (hown request hbody).authFilePath_lower, hfile]
    · exact h.writes w hw

theorem Sound.next {s : Site} (h : Sound m s) {e : Event} (hown : OwnPaths m e s) :
    Sound m (next m e s) := by
  cases e with
  | register now r => exact h.register now hown
  | operator files => exact ⟨h.override, h.lookups, h.writes⟩
  | check now => exact ⟨h.override, h.lookups, h.writes⟩

/-- A tracker whose configuration was read from its file, before its first request. -/
theorem sound_new {serverDir : GoString} {config : TrackerModuleConfig} {tm : TrackerModule}
    (hnew : newTrackerModule serverDir config = .ok tm)
    (hconfig : config.overrideCertVerification = none) (files : CertFiles) :
    Sound m ⟨tm, files, [], []⟩ := by
  unfold newTrackerModule at hnew
  split at hnew
  next => cases hnew
  next =>
    cases hnew
    exact ⟨hconfig, fun _ ha => absurd ha List.not_mem_nil, fun _ hw => absurd hw List.not_mem_nil⟩

/-! ## Names that are not their own -/

/-- A registration with an Ed25519 key. -/
def registration (peerName : GoString) (key : List UInt8) : Request :=
  ⟨"POST".toList, some ⟨peerName, -1⟩, some "10.0.0.7".toList, some [.ed25519 key]⟩

theorem checkRequest_registration {name : GoString} (hne : name ≠ []) (key : List UInt8) :
    checkRequest (registration name key) = .ok (⟨name, -1⟩, "10.0.0.7".toList) := by
  change (if name = [] then _ else _) = _
  rw [if_neg hne]
  rfl

/-- Where the case of a letter makes a difference, the path does too. -/
theorem authFilePath_lower_ne (serverDir : GoString) {name part : GoString}
    (hdots : ['.', '.'] ∉ resolved name) (hmem : part ∈ resolved name) (hpart : m.lower part ≠ part) :
    authFilePath serverDir (m.lower name) ≠ authFilePath serverDir name := by
  have hlower : ['.', '.'] ∉ resolved (m.lower name) := by
    rw [SlashPath.resolved_lower]
    intro h
    obtain ⟨other, hother, heq⟩ := List.mem_map.mp h
    rw [lower_eq_dots_iff] at heq
    exact hdots (heq ▸ hother)
  rw [authFilePath_eq serverDir hlower, authFilePath_eq serverDir hdots]
  intro heq
  have hjoin := (List.cons.inj (List.append_cancel_left heq)).2
  have hnames : ∀ path, Names (resolved path ++ ["fullchain.pem".toList]) := fun path =>
    (names_kept false path).reverse.concat (by decide) (by decide)
  have hparts := congrArg components hjoin
  rw [components_join (hnames _), components_join (hnames _), SlashPath.resolved_lower] at hparts
  have hmap : (resolved name).map m.lower = (resolved name).map id :=
    (List.append_cancel_right hparts).trans (List.map_id _).symm
  exact hpart (List.map_eq_map_iff.mp hmap part hmem)

/-- A name that is not lower-case can be let in by a certificate of its own and write the entry
of another peer. -/
theorem otherCase_not_authentic {tm : TrackerModule}
    (hconfig : tm.config.overrideCertVerification = none) {name part : GoString} (hne : name ≠ [])
    (hdots : ['.', '.'] ∉ resolved name) (hmem : part ∈ resolved name) (hpart : m.lower part ≠ part)
    (now : ℤ) : ∃ files, ¬ Throughout (next m) (Authentic m)
      [.register now (registration name [1])] ⟨tm, files, [], []⟩ := by
  let files : CertFiles := fun path =>
    if path = authFilePath tm.serverDir name then some (.ed25519 [1]) else some (.ed25519 [2])
  have hfile : files (authFilePath tm.serverDir name) = some (.ed25519 [1]) := if_pos rfl
  have hother : files (authFilePath tm.serverDir (m.lower name)) = some (.ed25519 [2]) :=
    if_neg (authFilePath_lower_ne tm.serverDir hdots hmem hpart)
  have hwrite : write m tm files (registration name [1]) =
      some ⟨m.lower name, some (.ed25519 [1]), some (.ed25519 [2])⟩ := by
    have hauthorized : authorized tm files ⟨name, -1⟩ (some (.ed25519 [1])) = true := by
      simp [authorized, hconfig, verifyPeerAuthorization, hfile]
    rw [write, checkRequest_registration hne]
    exact (if_pos hauthorized).trans (congrArg (fun file => some (Write.mk _ _ file)) hother)
  refine ⟨files, ?_⟩
  rintro ⟨-, h⟩
  have hmem : ⟨m.lower name, some (.ed25519 [1]), some (.ed25519 [2])⟩ ∈
      (next m (.register now (registration name [1])) ⟨tm, files, [], []⟩).writes :=
    List.mem_append_left _ (Option.mem_toList.mpr hwrite)
  obtain ⟨cert, hrequester, hauthorised⟩ := h.writes _ hmem
  have hsame : some (PublicKey.ed25519 [1]) = some (PublicKey.ed25519 [2]) :=
    hrequester.trans hauthorised.symm
  exact absurd hsame (by decide)

/-! ## Runs -/

/-- As long as every name is its own, dots resolved, the registry is authentic. -/
theorem registry_authentic (serverDir : GoString) (config : TrackerModuleConfig)
    {tm : TrackerModule} (hnew : newTrackerModule serverDir config = .ok tm)
    (hconfig : config.overrideCertVerification = none) (files : CertFiles) (events : List Event)
    (h : Each (next m) (OwnPaths m) events ⟨tm, files, [], []⟩) :
    Throughout (next m) (Authentic m) events ⟨tm, files, [], []⟩ :=
  throughout_of_each (next m) (fun _ hs => hs.authentic) (fun _ _ hs hown => hs.next hown)
    (sound_new hnew hconfig files) h

/-- A server in `/srv/grits` whose peers are under `cache.mydomain.com`. -/
def exampleTracker : TrackerModule :=
  ⟨⟨"cache.mydomain.com".toList, 300, none⟩, "/srv/grits".toList, fun _ => none⟩

/-- The certificates of two peers whose names differ in the case of a letter. -/
def twoPeers : CertFiles := fun path =>
  if path = "/srv/grits/var/certs/peers/Alice/fullchain.pem".toList then some (.ed25519 [1])
  else if path = "/srv/grits/var/certs/peers/alice/fullchain.pem".toList then some (.ed25519 [2])
  else none

/-- The registration of a peer with a lower-case name. -/
theorem registry_authentic_alice :
    Throughout (next .asciiOnly) (Authentic .asciiOnly)
      [.register 0 (registration "alice".toList [2])] ⟨exampleTracker, twoPeers, [], []⟩ := by
  refine registry_authentic "/srv/grits".toList exampleTracker.config rfl rfl twoPeers _
    ⟨?_, trivial⟩
  intro request hrequest
  cases hrequest
  have hresolved : resolved "alice".toList = ["alice".toList] := by decide
  intro part hpart
  rw [hresolved, List.mem_singleton] at hpart
  rw [hpart]
  decide

/-- With its own certificate, `Alice` writes the entry of `alice`. -/
theorem alice_written_by_Alice :
    ¬ Throughout (next .asciiOnly) (Authentic .asciiOnly)
      [.register 0 (registration "Alice".toList [1])] ⟨exampleTracker, twoPeers, [], []⟩ := by
  rintro ⟨-, h⟩
  have hwrite : write .asciiOnly exampleTracker twoPeers (registration "Alice".toList [1]) =
      some ⟨"alice".toList, some (.ed25519 [1]), some (.ed25519 [2])⟩ := by
    decide
  have hmem : ⟨"alice".toList, some (.ed25519 [1]), some (.ed25519 [2])⟩ ∈
      (next .asciiOnly (.register 0 (registration "Alice".toList [1]))
        ⟨exampleTracker, twoPeers, [], []⟩).writes :=
    List.mem_append_left _ (Option.mem_toList.mpr hwrite)
  obtain ⟨cert, hrequester, hauthorised⟩ := h.writes _ hmem
  have hsame := hrequester.trans hauthorised.symm
  exact absurd hsame (by decide)

end Tracker

end Grits
