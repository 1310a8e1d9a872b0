import Grits.Library.SlashPath
import Mathlib.Data.Rat.Cast.Order
import Mathlib.Tactic.Positivity

/-!
# Rate limits

The token buckets of `internal/gritsd/module_rate_limit.go`.  Amounts are exact
rationals where the code has floats; times and durations are in nanoseconds.
-/

namespace Grits

/-- An entry of the configuration, as `RateLimitModuleConfig.UnmarshalJSON` accepts it. -/
structure RateLimitEntry where
  max : ℤ
  duration : ℤ
  /-- 0 when it is absent. -/
  cost : ℤ
  max_nonneg : 0 ≤ max
  duration_pos : 0 < duration

/-- Why an entry of the configuration is refused. -/
inductive EntryError where
  /-- "limit … has invalid max …" -/
  | invalidMax (key : GoString) (max : ℤ)
  /-- "limit … has invalid duration …" -/
  | invalidDuration (key : GoString) (duration : ℤ)
  deriving DecidableEq

/-- The checks of `RateLimitModuleConfig.UnmarshalJSON`. -/
def checkEntry (key : GoString) (max duration cost : ℤ) : Except EntryError RateLimitEntry :=
  if hmax : max < 0 then .error (.invalidMax key max)
  else if hduration : duration ≤ 0 then .error (.invalidDuration key duration)
  else .ok ⟨max, duration, cost, not_lt.mp hmax, not_le.mp hduration⟩

/-- `rateLimitConfig`, as `NewRateLimitModule` makes it. -/
structure RateLimitConfig where
  name : GoString
  max : ℤ
  duration : ℤ
  cost : ℤ
  max_nonneg : 0 ≤ max
  duration_pos : 0 < duration
  cost_pos : 0 < cost

/-- The limit of an entry; without a positive cost it is 1. -/
def newRateLimitConfig (name : GoString) (entry : RateLimitEntry) : RateLimitConfig where
  name := name
  max := entry.max
  duration := entry.duration
  cost := if entry.cost ≤ 0 then 1 else entry.cost
  max_nonneg := entry.max_nonneg
  duration_pos := entry.duration_pos
  cost_pos := by split <;> omega

/-- `bucketKey`. -/
structure BucketKey where
  identity : GoString
  limit : GoString
  deriving DecidableEq

/-- `bucketState`; the zero time is `none`. -/
structure BucketState where
  amount : ℚ
  lastUpdated : Option ℤ
  nonneg : 0 ≤ amount

@[ext] theorem BucketState.ext {b b' : BucketState} (hamount : b.amount = b'.amount)
    (hlast : b.lastUpdated = b'.lastUpdated) : b = b' := by
  cases b
  cases b'
  cases hamount
  cases hlast
  rfl

/-- `&bucketState{}`. -/
def BucketState.new : BucketState := ⟨0, none, le_rfl⟩

/-- `RateLimitModule`. -/
structure RateLimitModule where
  limits : GoString → Option RateLimitConfig
  buckets : BucketKey → Option BucketState

/-- `NewRateLimitModule`. -/
def newRateLimitModule (entries : GoString → Option RateLimitEntry) : RateLimitModule where
  limits := fun name => (entries name).map (newRateLimitConfig name)
  buckets := fun _ => none

/-- `httpError` of `CheckLimit`: the status and what the message names. -/
structure HttpError where
  code : ℕ
  limitName : GoString
  max : ℤ
  duration : ℤ
  deriving DecidableEq

/-- `Duration.Seconds`. -/
def seconds (duration : ℤ) : ℚ := duration / 1000000000

/-- `Time.Sub`, which saturates. -/
def timeSub (t u : ℤ) : ℤ := max (-2 ^ 63) (min (2 ^ 63 - 1) (t - u))

namespace RateLimitConfig

/-- What a call with this cost is charged. -/
def charge (cfg : RateLimitConfig) (cost : ℤ) : ℤ := if cost ≤ 0 then cfg.cost else cost

/-- What drains out of a bucket in a second. -/
def rate (cfg : RateLimitConfig) : ℚ := cfg.max / seconds cfg.duration

theorem charge_pos (cfg : RateLimitConfig) (cost : ℤ) : 0 < cfg.charge cost := by
  unfold charge
  split
  · exact cfg.cost_pos
  · omega

/-- A positive cost is charged as it is. -/
theorem charge_of_pos (cfg : RateLimitConfig) {cost : ℤ} (h : 0 < cost) :
    cfg.charge cost = cost := if_neg (not_le.mpr h)

theorem rate_nonneg (cfg : RateLimitConfig) : 0 ≤ cfg.rate := by
  have hmax : (0 : ℚ) ≤ cfg.max := by exact_mod_cast cfg.max_nonneg
  have hduration : (0 : ℚ) < cfg.duration := by exact_mod_cast cfg.duration_pos
  unfold rate seconds
  positivity

end RateLimitConfig

namespace BucketState

/-- What has drained out since the last update. -/
def decay (cfg : RateLimitConfig) (now : ℤ) (b : BucketState) : ℚ :=
  match b.lastUpdated with
  | none => 0
  | some last => cfg.rate * seconds (timeSub now last)

/-- The bucket once this is taken off. -/
def decayed (cfg : RateLimitConfig) (now : ℤ) (b : BucketState) : BucketState where
  amount := if b.amount - b.decay cfg now < 0 then 0 else b.amount - b.decay cfg now
  lastUpdated := b.lastUpdated
  nonneg := by
    split
    · exact le_rfl
    · exact not_lt.mp ‹_›

/-- The bucket with the charge of a call added. -/
def filled (cfg : RateLimitConfig) (cost now : ℤ) (b : BucketState) : BucketState where
  amount := b.amount + cfg.charge cost
  lastUpdated := some now
  nonneg := by
    have hcharge : (0 : ℚ) < cfg.charge cost := by exact_mod_cast cfg.charge_pos cost
    exact add_nonneg b.nonneg hcharge.le

/-- `CheckLimit` with the lock of the bucket. -/
def check (cfg : RateLimitConfig) (limitName : GoString) (cost now : ℤ) (b : BucketState) :
    Option HttpError × BucketState :=
  let bucket := b.decayed cfg now
  if (cfg.max : ℚ) < bucket.amount + cfg.charge cost then
    (some ⟨429, limitName, cfg.max, cfg.duration⟩, bucket)
  else (none, bucket.filled cfg cost now)

end BucketState

/-- A call of `CheckLimit`, with the time it finds on the clock. -/
structure LimitCall where
  identity : GoString
  limitName : GoString
  cost : ℤ
  now : ℤ
  deriving DecidableEq

/-- The bucket a call is about. -/
def LimitCall.key (call : LimitCall) : BucketKey := ⟨call.identity, call.limitName⟩

namespace RateLimitModule

/-- `LoadOrStore`. -/
def bucket (m : RateLimitModule) (key : BucketKey) : BucketState := (m.buckets key).getD .new

/-- `CheckLimit`. -/
def checkLimit (m : RateLimitModule) (call : LimitCall) : Option HttpError × RateLimitModule :=
  match m.limits call.limitName with
  | none => (none, m)
  | some cfg =>
      let (err, b) := (m.bucket call.key).check cfg call.limitName call.cost call.now
      (err, { m with buckets := Function.update m.buckets call.key (some b) })

/-- The calls that are allowed, when all are made in this order. -/
def accepted : RateLimitModule → List LimitCall → List LimitCall
  | _, [] => []
  | m, call :: calls =>
      match m.checkLimit call with
      | (none, m') => call :: accepted m' calls
      | (some _, m') => accepted m' calls

end RateLimitModule

end Grits
