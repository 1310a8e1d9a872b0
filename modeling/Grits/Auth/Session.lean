import Grits.Library.Base64
import Grits.Library.Decimal
import Mathlib.Data.List.TakeWhile

/-!
# Session tokens

`hmacToken` and `verifyHMACToken` of `internal/gritsd/module_auth.go`, on the bytes of the
texts.  The MAC is a parameter, and ideal: a token carries the tag of a text only if the
text was signed.
-/

namespace Grits

namespace Session

/-- `TokenStatus` -/
inductive TokenStatus where
  | active
  | expired
  | invalid
  deriving DecidableEq

/-- What the tokens depend on in an `AuthModule`. -/
structure AuthModule where
  authSecret : List UInt8
  /-- `int64(m.sessionMaxAge.Seconds())` -/
  sessionMaxAge : Int64
  /-- `NewAuthModule` replaces what is not positive by the default. -/
  sessionMaxAge_nonneg : 0 ≤ sessionMaxAge.toInt
  /-- A `time.Duration` counts nanoseconds in 64 bits. -/
  sessionMaxAge_lt : sessionMaxAge.toInt < 2 ^ 34

/-- What `time.Now().Unix()` returns. -/
structure UnixTime where
  seconds : Int64
  /-- A `time.Time` counts its seconds from the year 1, in 64 bits. -/
  seconds_lt : seconds.toInt < 2 ^ 63 - 62135596800

variable (hmac : List UInt8 → List UInt8 → List UInt8) (m : AuthModule)

/-- The text that is signed: `fmt.Sprintf("%d:%s", ts, username)`. -/
def plain (ts : Int64) (username : List UInt8) : List UInt8 :=
  Decimal.format ts ++ 58 :: username

/-- `AuthModule.hmacToken` -/
def hmacToken (now : Int64) (username : List UInt8) : List UInt8 :=
  let plain := plain now username
  let sig := hmac m.authSecret plain
  let token := plain ++ 58 :: Base64.encode sig
  Base64.encode token

/-- The text before the first colon and the text after it. -/
def cutColon (s : List UInt8) : Option (List UInt8 × List UInt8) :=
  match s.dropWhile (· != 58) with
  | [] => none
  | _ :: rest => some (s.takeWhile (· != 58), rest)

/-- `strings.SplitN(s, ":", 3)` -/
def splitN (s : List UInt8) : List (List UInt8) :=
  match cutColon s with
  | none => [s]
  | some (first, rest) =>
      match cutColon rest with
      | none => [first, rest]
      | some (second, third) => [first, second, third]

/-- The time, the user and the signature that `verifyHMACToken` reads in a token. -/
def parseToken (token : List UInt8) : Option (Int64 × List UInt8 × List UInt8) :=
  match Base64.decode token with
  | none => none
  | some raw =>
      match splitN raw with
      | [ts, username, sig] => do
          let ts ← Decimal.parseInt ts
          let providedSig ← Base64.decode sig
          pure (ts, username, providedSig)
      | _ => none

/-- `AuthModule.verifyHMACToken`: the user, the status and the expiry. -/
def verifyHMACToken (now : Int64) (token : List UInt8) : List UInt8 × TokenStatus × Int64 :=
  if m.authSecret = [] then ([], .invalid, 0)
  else
    match parseToken token with
    | none => ([], .invalid, 0)
    | some (ts, username, providedSig) =>
        let expectedSig := hmac m.authSecret (plain ts username)
        if providedSig ≠ expectedSig then ([], .invalid, 0)
        else
          let expiry := ts + m.sessionMaxAge
          if expiry < now then (username, .expired, expiry) else (username, .active, expiry)

/-- The signature in the token is the tag of no text but those that `hmacToken` has signed in
these calls. -/
def Unforged (calls : List (UnixTime × List UInt8)) (token : List UInt8) : Prop :=
  ∀ ts username sig, parseToken token = some (ts, username, sig) →
    ∀ text, hmac m.authSecret text = sig →
      ∃ call ∈ calls, text = plain call.1.seconds call.2

/-! ## Colons -/

theorem cutColon_append {first : List UInt8} (h : 58 ∉ first) (rest : List UInt8) :
    cutColon (first ++ 58 :: rest) = some (first, rest) := by
  have hall : ∀ c ∈ first, (c != 58) = true := by
    intro c hc
    rw [bne_iff_ne]
    rintro rfl
    exact h hc
  rw [cutColon, List.dropWhile_append_of_pos hall, List.takeWhile_append_of_pos hall]
  simp

theorem cutColon_eq_some {s first rest : List UInt8} (h : cutColon s = some (first, rest)) :
    58 ∉ first := by
  rw [cutColon] at h
  split at h
  next => cases h
  next =>
    cases h
    intro hmem
    have hne := List.mem_takeWhile_imp hmem
    exact absurd hne (by decide)

theorem splitN_append {first second : List UInt8} (hfirst : 58 ∉ first) (hsecond : 58 ∉ second)
    (third : List UInt8) :
    splitN ((first ++ 58 :: second) ++ 58 :: third) = [first, second, third] := by
  rw [splitN, List.append_assoc, List.cons_append, cutColon_append hfirst]
  simp only [cutColon_append hsecond]

/-- The text that is signed tells the time and the user, whatever is in the name. -/
theorem plain_inj {ts ts' : Int64} {username username' : List UInt8}
    (h : plain ts username = plain ts' username') : ts = ts' ∧ username = username' := by
  have hcut := congrArg cutColon h
  rw [plain, plain, cutColon_append (Decimal.colon_notMem_format _),
    cutColon_append (Decimal.colon_notMem_format _), Option.some_inj, Prod.mk.injEq] at hcut
  exact ⟨Decimal.format_injective hcut.1, hcut.2⟩

/-! ## Issued tokens -/

variable {hmac m}

/-- Times and ages add up without an overflow. -/
theorem toInt_expiry (m : AuthModule) (issued : UnixTime) :
    (issued.seconds + m.sessionMaxAge).toInt = issued.seconds.toInt + m.sessionMaxAge.toInt := by
  have hage := m.sessionMaxAge_lt
  have hage' := m.sessionMaxAge_nonneg
  have htime := issued.seconds_lt
  have hle := Int64.le_toInt issued.seconds
  rw [Int64.toInt_add, Int.bmod_eq_of_le]
  · omega
  · omega

theorem parseToken_hmacToken (now : Int64) {username : List UInt8} (h : 58 ∉ username) :
    parseToken (hmacToken hmac m now username) =
      some (now, username, hmac m.authSecret (plain now username)) := by
  have hsplit : splitN (plain now username ++
      58 :: Base64.encode (hmac m.authSecret (plain now username))) = _ :=
    splitN_append (Decimal.colon_notMem_format now) h _
  rw [parseToken, hmacToken, Base64.decode_encode]
  change (match splitN (plain now username ++ 58 :: _) with
    | [ts, username, sig] => _
    | _ => none) = _
  rw [hsplit]
  simp only [Decimal.parseInt_format, Base64.decode_encode]
  rfl

theorem verifyHMACToken_of_parse (hsecret : m.authSecret ≠ []) (now : Int64)
    {token username : List UInt8} {ts : Int64}
    (h : parseToken token = some (ts, username, hmac m.authSecret (plain ts username))) :
    verifyHMACToken hmac m now token = (username,
      if ts + m.sessionMaxAge < now then .expired else .active, ts + m.sessionMaxAge) := by
  rw [verifyHMACToken, if_neg hsecret, h]
  simp only [ne_eq, not_true_eq_false, if_false]
  split
  · rfl
  · rfl

/-- What is accepted has been parsed and carries the tag of its text. -/
theorem verifyHMACToken_accepted {now : Int64} {token user : List UInt8} {status : TokenStatus}
    {expiry : Int64} (h : verifyHMACToken hmac m now token = (user, status, expiry))
    (hstatus : status ≠ .invalid) : ∃ ts, expiry = ts + m.sessionMaxAge ∧
      parseToken token = some (ts, user, hmac m.authSecret (plain ts user)) := by
  rw [verifyHMACToken] at h
  split at h
  next =>
    cases h
    exact absurd rfl hstatus
  next =>
    split at h
    next =>
      cases h
      exact absurd rfl hstatus
    next ts username sig hparse =>
      simp only [ne_eq, ite_not] at h
      split at h
      next hsig =>
        split at h
        next =>
          cases h
          exact ⟨ts, rfl, hsig ▸ hparse⟩
        next =>
          cases h
          exact ⟨ts, rfl, hsig ▸ hparse⟩
      next =>
        cases h
        exact absurd rfl hstatus

/-- A token that is issued is verified, for the user, until its expiry; and a token that is
accepted was issued, to the user and at the time that its expiry tells. -/
theorem tokens_authentic (hmac : List UInt8 → List UInt8 → List UInt8) (m : AuthModule)
    (hsecret : m.authSecret ≠ []) :
    (∀ (username : List UInt8) (issued : UnixTime) (now : Int64), 58 ∉ username →
      ∃ expiry : Int64, expiry.toInt = issued.seconds.toInt + m.sessionMaxAge.toInt ∧
        verifyHMACToken hmac m now (hmacToken hmac m issued.seconds username) = (username,
          if now.toInt ≤ issued.seconds.toInt + m.sessionMaxAge.toInt then .active else .expired,
          expiry)) ∧
    ∀ (calls : List (UnixTime × List UInt8)) (token : List UInt8), Unforged hmac m calls token →
      ∀ (now : Int64) (user : List UInt8) (status : TokenStatus) (expiry : Int64),
        verifyHMACToken hmac m now token = (user, status, expiry) → status ≠ .invalid →
        ∃ call ∈ calls, call.2 = user ∧
          call.1.seconds.toInt = expiry.toInt - m.sessionMaxAge.toInt := by
  constructor
  · intro username issued now husername
    refine ⟨issued.seconds + m.sessionMaxAge, toInt_expiry m issued, ?_⟩
    rw [verifyHMACToken_of_parse hsecret now (parseToken_hmacToken issued.seconds husername)]
    have hlt : issued.seconds + m.sessionMaxAge < now ↔
        ¬ now.toInt ≤ issued.seconds.toInt + m.sessionMaxAge.toInt := by
      rw [Int64.lt_iff_toInt_lt, toInt_expiry, not_le]
    simp only [hlt, ite_not]
  · intro calls token hunforged now user status expiry hverify hstatus
    obtain ⟨ts, rfl, hparse⟩ := verifyHMACToken_accepted hverify hstatus
    obtain ⟨call, hcall, htext⟩ := hunforged ts user _ hparse (plain ts user) rfl
    obtain ⟨rfl, rfl⟩ := plain_inj htext
    refine ⟨call, hcall, rfl, ?_⟩
    rw [toInt_expiry]
    omega

/-! ### A token of the user `a` -/

/-- The tag of `0:a` under the secret of one byte 1. -/
def tagOfA : List UInt8 :=
  [188, 111, 58, 91, 125, 225, 177, 181, 66, 224, 221, 69, 33, 95, 84, 247,
    179, 128, 100, 213, 51, 57, 212, 165, 147, 46, 110, 160, 78, 3, 4, 67]

/-- HMAC-SHA256 on this secret and text. -/
def hmacOfA (key text : List UInt8) : List UInt8 :=
  if key = [1] ∧ text = [48, 58, 97] then tagOfA else []

/-- A server whose sessions last a minute. -/
def minuteModule : AuthModule := ⟨[1], 60, by decide, by decide⟩

/-- The first second of 1970. -/
def epoch : UnixTime := ⟨0, by decide⟩

theorem unforged_token :
    Unforged hmacOfA minuteModule [(epoch, [97])] (hmacToken hmacOfA minuteModule 0 [97]) := by
  intro ts username sig hparse text htag
  rw [parseToken_hmacToken 0 (by decide)] at hparse
  cases hparse
  refine ⟨_, List.mem_singleton_self _, ?_⟩
  have hplain : plain 0 [97] = [48, 58, 97] := by decide +kernel
  rw [hplain] at htag
  change text = plain 0 [97]
  rw [hplain]
  by_contra hne
  rw [hmacOfA, if_neg fun h => hne h.2] at htag
  exact absurd htag (by decide +kernel)

/-- The token is accepted after 60 seconds, and so it was issued. -/
theorem token_of_a :
    (∃ expiry : Int64, expiry.toInt = 60 ∧
      verifyHMACToken hmacOfA minuteModule 60 (hmacToken hmacOfA minuteModule 0 [97]) =
        ([97], .active, expiry)) ∧
    ∃ call ∈ [(epoch, ([97] : List UInt8))], call.2 = [97] ∧ call.1.seconds.toInt = 0 := by
  have hsecret : minuteModule.authSecret ≠ [] := by decide
  obtain ⟨hissued, haccepted⟩ := tokens_authentic hmacOfA minuteModule hsecret
  obtain ⟨expiry, hexpiry, hverify⟩ := hissued [97] epoch 60 (by decide)
  have hsixty : epoch.seconds.toInt + minuteModule.sessionMaxAge.toInt = 60 := by decide
  rw [hsixty] at hexpiry hverify
  rw [if_pos (by decide)] at hverify
  refine ⟨⟨expiry, hexpiry, hverify⟩, ?_⟩
  obtain ⟨call, hcall, huser, htime⟩ :=
    haccepted _ _ unforged_token 60 [97] .active expiry hverify (by decide)
  have hage : minuteModule.sessionMaxAge.toInt = 60 := by decide
  rw [hexpiry, hage] at htime
  exact ⟨call, hcall, huser, htime⟩

end Session

end Grits
