import Grits.Server.TrackerRegistry

/-!
# The DNS server of the tracker

`TrackerModule.handleDNSQuery` looks a question up by its first label alone, after it has asked
for four parts of the name, the empty one behind the last dot included.  It is compared with
the names of the peers in front of the subdomain.
-/

namespace Grits

namespace Tracker

open SlashPath

/-- `dns.Question` -/
structure Question where
  name : GoString
  qtype : ℕ

/-- `dns.TypeA` -/
def typeA : ℕ := 1

/-- `dns.ClassINET` -/
def classINET : ℕ := 1

/-- `dns.A`, over the addresses that `net.ParseIP` gives. -/
structure ARecord (IP : Type) where
  name : GoString
  rrtype : ℕ
  classCode : ℕ
  ttl : ℕ
  a : IP
  deriving DecidableEq

section

variable {IP : Type} (m : CaseMapping) (parseIP : GoString → IP)

/-- "Create A record pointing to peer's IP" -/
def addressRecord (name : GoString) (address : IP) : ARecord IP :=
  ⟨name, typeA, classINET, 300, address⟩

/-- One question of `handleDNSQuery`. -/
def answer (tm : TrackerModule) (q : Question) : Option (ARecord IP) :=
  let domainParts := q.name.splitOn '.'
  if domainParts.length < 4 then none
  else
    match tm.peers (m.lower (domainParts.headD [])) with
    | none => none
    | some peer =>
        if !peer.isActive || peer.ipAddress = [] then none
        else if q.qtype = typeA then some (addressRecord q.name (parseIP peer.ipAddress))
        else none

/-- `TrackerModule.handleDNSQuery`: the answers to the questions of a message. -/
def handleDNSQuery (tm : TrackerModule) (questions : List Question) : List (ARecord IP) :=
  questions.filterMap (answer m parseIP tm)

/-- The address of an active peer. -/
def address (tm : TrackerModule) (key : GoString) : Option IP :=
  match tm.peers key with
  | none => none
  | some peer => if peer.isActive && peer.ipAddress ≠ [] then some (parseIP peer.ipAddress) else none

end

/-! ## Labels -/

section

variable {m : CaseMapping}

end

/-! ## What is looked up, and what should be -/

section

variable {IP : Type} {m : CaseMapping} {parseIP : GoString → IP} {tm : TrackerModule}
  {q : Question}

end

/-! ## Runs -/

section

variable {m : CaseMapping}

end

end Tracker

end Grits
