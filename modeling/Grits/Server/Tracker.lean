import Grits.Library.ResolvedPath
import Mathlib.Logic.Function.Basic

/-!
# The tracker

`TrackerModule`: the registry of peers, the registrations and heartbeats that write it, and the
check that marks peers inactive.  A certificate stands here for its public key, which is all
that `verifyPeerAuthorization` compares, and the time is in nanoseconds.
-/

namespace Grits

namespace Tracker

open SlashPath

/-! ## Certificates -/

/-- The types of a public key that are told apart. -/
inductive PublicKey
  | rsa (n e : ℤ)
  | ecdsa (x y : ℤ) (curve : GoString)
  | ed25519 (key : List UInt8)
  | unsupported (type : GoString)
  deriving DecidableEq

/-- The certificates in the files, where a file is there and holds one. -/
abbrev CertFiles := GoString → Option PublicKey

/-- `TrackerModule.verifyPeerAuthorization` -/
def verifyPeerAuthorization (files : CertFiles) (authFilePath : GoString)
    (peerPublicKey : PublicKey) : Bool :=
  match files authFilePath, peerPublicKey with
  | some (.rsa n e), .rsa n' e' => n' = n && e' = e
  | some (.ecdsa x y curve), .ecdsa x' y' curve' => x' = x && y' = y && curve' = curve
  | some (.ed25519 key), .ed25519 key' => key' = key
  | _, _ => false

/-- `Config.ServerPath` -/
def serverPath (serverDir path : GoString) : GoString := joinClean serverDir path

/-- `GetCertPath` for a `PeerCert` -/
def getCertPath (serverDir entityName : GoString) : GoString :=
  serverPath serverDir ("var/certs/peers/".toList ++ entityName)

/-- The file with the certificate that is authorised for a name. -/
def authFilePath (serverDir peerName : GoString) : GoString :=
  joinClean (getCertPath serverDir peerName) "fullchain.pem".toList

/-! ## The registry -/

structure PeerInfo where
  name : GoString
  lastHeartbeat : ℤ
  isActive : Bool
  port : ℤ
  ipAddress : GoString
  fqdn : GoString
  deriving DecidableEq

structure TrackerModuleConfig where
  peerSubdomain : GoString
  heartbeatIntervalSec : Int64
  /-- For tests only: it is not read from the configuration file. -/
  overrideCertVerification : Option Bool

/-- `TrackerModule`, with the directory of its server. -/
structure TrackerModule where
  config : TrackerModuleConfig
  serverDir : GoString
  peers : GoString → Option PeerInfo

/-- `NewTrackerModule` -/
def newTrackerModule (serverDir : GoString) (config : TrackerModuleConfig) :
    Except GoString TrackerModule :=
  if config.peerSubdomain = [] then .error "peerSubdomain is required".toList
  else
    let interval := if config.heartbeatIntervalSec ≤ 0 then 300 else config.heartbeatIntervalSec
    .ok ⟨{ config with heartbeatIntervalSec := interval }, serverDir, fun _ => none⟩

/-- The body of a registration. -/
structure RegisterRequest where
  peerName : GoString
  port : ℤ

/-- A request to `register-peer`: its body as far as it can be decoded, the host in its remote
address as far as it can be split, and the client certificates of its connection if that has
TLS. -/
structure Request where
  method : GoString
  body : Option RegisterRequest
  remoteHost : Option GoString
  tlsCertificates : Option (List PublicKey)

structure HttpError where
  text : GoString
  status : ℕ
  deriving DecidableEq

structure Response where
  status : GoString
  fqdn : GoString
  registrationType : GoString
  heartbeatSec : Int64
  deriving DecidableEq

/-- What `RegisterPeerHandler` checks before it looks at the certificate. -/
def checkRequest (r : Request) : Except HttpError (RegisterRequest × GoString) :=
  if r.method ≠ "POST".toList then .error ⟨"Method not allowed".toList, 405⟩
  else
    match r.body with
    | none => .error ⟨"Invalid request format".toList, 400⟩
    | some request =>
        if request.peerName = [] then .error ⟨"PeerName is required".toList, 400⟩
        else
          match r.remoteHost with
          | none => .error ⟨"Failed to determine peer IP address".toList, 500⟩
          | some peerIP => .ok (request, peerIP)

/-- The certificate that a connection shows. -/
def clientCert (r : Request) : Option PublicKey := r.tlsCertificates.bind List.head?

/-- "Handle certificate verification" -/
def authorized (tm : TrackerModule) (files : CertFiles) (request : RegisterRequest)
    (clientCert : Option PublicKey) : Bool :=
  match tm.config.overrideCertVerification with
  | none =>
      match clientCert with
      | some cert => verifyPeerAuthorization files (authFilePath tm.serverDir request.peerName) cert
      | none => false
  | some allowed => allowed

section Handler

variable (m : CaseMapping)

/-- "Update peer registry" -/
def updateRegistry (tm : TrackerModule) (now : ℤ) (request : RegisterRequest) (peerIP : GoString) :
    TrackerModule × Response :=
  let lowerPeerName := m.lower request.peerName
  let peerFQDN := lowerPeerName ++ '.' :: tm.config.peerSubdomain
  let registrationType :=
    match tm.peers lowerPeerName with
    | none => "new".toList
    | some peer => if peer.isActive then "heartbeat".toList else "reactivated".toList
  -- an entry that exists gets the same fields as a new one
  let entry := ⟨request.peerName, now, true, request.port, peerIP, peerFQDN⟩
  ({ tm with peers := Function.update tm.peers lowerPeerName (some entry) },
    ⟨"success".toList, peerFQDN, registrationType, tm.config.heartbeatIntervalSec⟩)

/-- `TrackerModule.RegisterPeerHandler` at the time `now`. -/
def registerPeerHandler (tm : TrackerModule) (files : CertFiles) (now : ℤ) (r : Request) :
    TrackerModule × Except HttpError Response :=
  match checkRequest r with
  | .error e => (tm, .error e)
  | .ok (request, peerIP) =>
      if authorized tm files request (clientCert r) then
        let result := updateRegistry m tm now request peerIP
        (result.1, .ok result.2)
      else (tm, .error ⟨"Unauthorized".toList, 403⟩)

end Handler

/-- Five minutes. -/
def inactiveAfter : ℤ := 5 * 60 * 10 ^ 9

/-- One entry of `updatePeerActivity`. -/
def PeerInfo.checked (now : ℤ) (peer : PeerInfo) : PeerInfo :=
  if peer.lastHeartbeat < now - inactiveAfter then { peer with isActive := false } else peer

/-- `TrackerModule.updatePeerActivity` -/
def updatePeerActivity (tm : TrackerModule) (now : ℤ) : TrackerModule :=
  { tm with peers := fun key => (tm.peers key).map (PeerInfo.checked now) }

end Tracker

end Grits
