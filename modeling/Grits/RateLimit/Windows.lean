import Grits.Library.Metering
import Grits.RateLimit.CheckLimit

/-!
# What a rate limit allows in a window of time

A refused call takes the decay off the bucket but leaves the time of the last
update, so the same decay is taken off again by the next call.  Where no call is
refused between two such moments, the bucket is a vessel that leaks at the rate of
the limit.
-/

namespace Grits

open Metering

/-- Taking off the decay now makes no difference later: nothing has drained, or everything
has. -/
def BucketState.Settled (cfg : RateLimitConfig) (now : ℤ) (b : BucketState) : Prop :=
  b.decay cfg now = 0 ∨ b.amount ≤ b.decay cfg now

namespace RateLimitModule

/-- The times of the calls go up, from the last update of every bucket on. -/
def InOrder (m : RateLimitModule) (calls : List LimitCall) : Prop :=
  calls.Pairwise (fun call later => call.now ≤ later.now) ∧
    ∀ key last, (m.bucket key).lastUpdated = some last → ∀ call ∈ calls, last ≤ call.now

/-- No call is refused while its bucket is partly drained. -/
def RefusesSettled : RateLimitModule → List LimitCall → Prop
  | _, [] => True
  | m, call :: calls =>
      ((m.checkLimit call).1 ≠ none → ∀ cfg, m.limits call.limitName = some cfg →
        (m.bucket call.key).Settled cfg call.now) ∧
      RefusesSettled (m.checkLimit call).2 calls

/-- What the calls for a bucket are charged in a window of time. -/
def charged (cfg : RateLimitConfig) (key : BucketKey) (start stop : ℤ) (calls : List LimitCall) :
    ℤ :=
  ((calls.filter fun call => call.key = key ∧ start ≤ call.now ∧ call.now ≤ stop).map
    fun call => cfg.charge call.cost).sum

/-- What a limit promises of a sequence of calls. -/
structure Limits (m : RateLimitModule) (calls : List LimitCall) : Prop where
  /-- In any window the calls that are allowed cost no more than the limit, with what the
  limit adds during the window. -/
  bounded : ∀ key cfg, m.limits key.limit = some cfg → ∀ start stop, start ≤ stop →
    (charged cfg key start stop (m.accepted calls) : ℚ) ≤
      cfg.max + seconds (stop - start) * cfg.max / seconds cfg.duration
  /-- Without the refused calls the others are allowed all the same. -/
  unaffected : m.accepted (m.accepted calls) = m.accepted calls

end RateLimitModule

/-! ## One bucket -/

namespace BucketState

variable {cfg : RateLimitConfig} {b : BucketState} {now later : ℤ}

theorem amount_decayed (cfg : RateLimitConfig) (now : ℤ) (b : BucketState) :
    (b.decayed cfg now).amount = max 0 (b.amount - b.decay cfg now) := by
  change (if b.amount - b.decay cfg now < 0 then 0 else b.amount - b.decay cfg now) = _
  split
  next h => exact (max_eq_left h.le).symm
  next h => exact (max_eq_right (not_lt.mp h)).symm

@[simp] theorem lastUpdated_decayed (cfg : RateLimitConfig) (now : ℤ) (b : BucketState) :
    (b.decayed cfg now).lastUpdated = b.lastUpdated := rfl

@[simp] theorem decay_decayed (cfg : RateLimitConfig) (now later : ℤ) (b : BucketState) :
    (b.decayed cfg now).decay cfg later = b.decay cfg later := rfl

theorem decay_mono (cfg : RateLimitConfig) (b : BucketState) (h : now ≤ later) :
    b.decay cfg now ≤ b.decay cfg later := by
  unfold decay
  cases b.lastUpdated with
  | none => exact le_rfl
  | some last =>
      have hsub : timeSub now last ≤ timeSub later last := by
        unfold timeSub
        omega
      have hseconds : seconds (timeSub now last) ≤ seconds (timeSub later last) := by
        unfold seconds
        exact div_le_div_of_nonneg_right (by exact_mod_cast hsub) (by norm_num)
      exact mul_le_mul_of_nonneg_left hseconds cfg.rate_nonneg

/-- Being settled is what it takes for a second decay to make no difference. -/
theorem settled_iff (hnonneg : 0 ≤ b.decay cfg now) :
    b.Settled cfg now ↔
      ∀ later, now ≤ later → (b.decayed cfg now).decayed cfg later = b.decayed cfg later := by
  constructor
  · intro h later hlater
    have hmono := b.decay_mono cfg hlater
    refine BucketState.ext ?_ rfl
    rw [amount_decayed, amount_decayed, amount_decayed, decay_decayed]
    rcases h with h | h
    · rw [h, sub_zero, max_eq_right b.nonneg]
    · rw [max_eq_left (by linarith : b.amount - b.decay cfg now ≤ 0),
        max_eq_left (by linarith), max_eq_left (by linarith)]
  · intro h
    have hamount := congrArg BucketState.amount (h now le_rfl)
    rw [amount_decayed, amount_decayed, decay_decayed] at hamount
    by_contra hsettled
    rw [Settled, not_or, not_le] at hsettled
    obtain ⟨hne, hlt⟩ := hsettled
    have hpos : 0 < b.decay cfg now := lt_of_le_of_ne hnonneg (Ne.symm hne)
    rw [max_eq_right (by linarith : 0 ≤ b.amount - b.decay cfg now)] at hamount
    rcases max_choice 0 (b.amount - b.decay cfg now - b.decay cfg now) with hmax | hmax
    · linarith
    · linarith

/-- A call looks at the bucket only after the decay is taken off. -/
theorem check_congr {b' : BucketState} (h : b.decayed cfg now = b'.decayed cfg now)
    (limitName : GoString) (cost : ℤ) :
    b.check cfg limitName cost now = b'.check cfg limitName cost now := by
  unfold check
  rw [h]

/-- What is known of a bucket after a call. -/
theorem check_cases (cfg : RateLimitConfig) (limitName : GoString) (cost now : ℤ)
    (b : BucketState) :
    ((b.check cfg limitName cost now).1 = none ∧
      (b.decayed cfg now).amount + cfg.charge cost ≤ cfg.max ∧
      (b.check cfg limitName cost now).2 = (b.decayed cfg now).filled cfg cost now) ∨
    ((b.check cfg limitName cost now).1 ≠ none ∧
      (b.check cfg limitName cost now).2 = b.decayed cfg now) := by
  unfold check
  by_cases h : (cfg.max : ℚ) < (b.decayed cfg now).amount + cfg.charge cost
  · simp [h]
  · simp [h, not_lt.mp h]

theorem decay_nonneg (cfg : RateLimitConfig) (b : BucketState)
    (h : ∀ last, b.lastUpdated = some last → last ≤ now) : 0 ≤ b.decay cfg now := by
  unfold decay
  cases hlast : b.lastUpdated with
  | none => exact le_rfl
  | some last =>
      have hle := h last hlast
      have hsub : 0 ≤ timeSub now last := by
        unfold timeSub
        omega
      have hseconds : 0 ≤ seconds (timeSub now last) := by
        unfold seconds
        exact div_nonneg (by exact_mod_cast hsub) (by norm_num)
      exact mul_nonneg cfg.rate_nonneg hseconds

/-- A bucket drains no faster than at its rate. -/
theorem decay_le (cfg : RateLimitConfig) (b : BucketState) {last : ℤ}
    (h : b.lastUpdated = none ∨ b.lastUpdated = some last) (hle : last ≤ now) :
    b.decay cfg now ≤ cfg.rate * (seconds now - seconds last) := by
  have hseconds : seconds now - seconds last = seconds (now - last) := by
    unfold seconds
    push_cast
    ring
  have hpos : 0 ≤ now - last := sub_nonneg.mpr hle
  rw [hseconds]
  unfold decay
  rcases h with h | h
  · rw [h]
    refine mul_nonneg cfg.rate_nonneg ?_
    unfold seconds
    exact div_nonneg (by exact_mod_cast hpos) (by norm_num)
  · rw [h]
    have hsub : timeSub now last ≤ now - last := by
      unfold timeSub
      omega
    refine mul_le_mul_of_nonneg_left ?_ cfg.rate_nonneg
    unfold seconds
    exact div_le_div_of_nonneg_right (by exact_mod_cast hsub) (by norm_num)

end BucketState

/-! ## One call -/

namespace RateLimitModule

variable {m m' : RateLimitModule} {call : LimitCall} {calls : List LimitCall} {now : ℤ}
  {cfg : RateLimitConfig} {key : BucketKey}

theorem checkLimit_unlimited (h : m.limits call.limitName = none) :
    m.checkLimit call = (none, m) := by
  rw [checkLimit, h]

theorem checkLimit_limited (h : m.limits call.limitName = some cfg) :
    m.checkLimit call =
      (((m.bucket call.key).check cfg call.limitName call.cost call.now).1,
        { m with buckets := Function.update m.buckets call.key
                  (some ((m.bucket call.key).check cfg call.limitName call.cost call.now).2) }) := by
  rw [checkLimit, h]

@[simp] theorem limits_checkLimit (m : RateLimitModule) (call : LimitCall) :
    (m.checkLimit call).2.limits = m.limits := by
  cases h : m.limits call.limitName with
  | none => rw [checkLimit_unlimited h]
  | some cfg => rw [checkLimit_limited h]

theorem bucket_checkLimit_self (h : m.limits call.limitName = some cfg) :
    (m.checkLimit call).2.bucket call.key =
      ((m.bucket call.key).check cfg call.limitName call.cost call.now).2 := by
  rw [checkLimit_limited h]
  simp [bucket]

theorem bucket_checkLimit_of_ne (m : RateLimitModule) (h : key ≠ call.key) :
    (m.checkLimit call).2.bucket key = m.bucket key := by
  cases hlimit : m.limits call.limitName with
  | none => rw [checkLimit_unlimited hlimit]
  | some cfg =>
      rw [checkLimit_limited hlimit]
      simp [bucket, Function.update_of_ne h]

theorem accepted_cons (m : RateLimitModule) (call : LimitCall) (calls : List LimitCall) :
    m.accepted (call :: calls) =
      if (m.checkLimit call).1 = none then call :: (m.checkLimit call).2.accepted calls
      else (m.checkLimit call).2.accepted calls := by
  rw [accepted]
  rcases m.checkLimit call with ⟨_ | err, m'⟩
  · rfl
  · rfl

theorem accepted_sublist (m : RateLimitModule) (calls : List LimitCall) :
    (m.accepted calls).Sublist calls := by
  induction calls generalizing m with
  | nil => exact List.Sublist.refl []
  | cons call calls ih =>
      rw [accepted_cons]
      split
      · exact (ih _).cons_cons call
      · exact (ih _).cons call

theorem InOrder.sublist {calls' : List LimitCall} (h : InOrder m calls)
    (hsub : calls'.Sublist calls) : InOrder m calls' :=
  ⟨h.1.sublist hsub, fun key last hlast call hcall => h.2 key last hlast call (hsub.mem hcall)⟩

/-- The rest of the calls is in order after the first one. -/
theorem InOrder.checkLimit (h : InOrder m (call :: calls)) :
    InOrder (m.checkLimit call).2 calls := by
  obtain ⟨hpairwise, hlast⟩ := h
  rw [List.pairwise_cons] at hpairwise
  refine ⟨hpairwise.2, fun key last hkey other hother => ?_⟩
  have hbefore : (m.bucket key).lastUpdated = some last → last ≤ other.now :=
    fun h => hlast key last h other (List.mem_cons_of_mem call hother)
  by_cases hself : key = call.key
  · subst hself
    cases hlimit : m.limits call.limitName with
    | none =>
        rw [checkLimit_unlimited hlimit] at hkey
        exact hbefore hkey
    | some cfg =>
        rw [bucket_checkLimit_self hlimit] at hkey
        rcases BucketState.check_cases cfg call.limitName call.cost call.now (m.bucket call.key)
          with ⟨-, -, hcheck⟩ | ⟨-, hcheck⟩
        · rw [hcheck] at hkey
          cases hkey
          exact hpairwise.1 other hother
        · rw [hcheck, BucketState.lastUpdated_decayed] at hkey
          exact hbefore hkey
  · rw [bucket_checkLimit_of_ne m hself] at hkey
    exact hbefore hkey

/-! ## Refused calls -/

/-- From `now` on the two states answer alike. -/
structure Alike (now : ℤ) (m m' : RateLimitModule) : Prop where
  limits : m.limits = m'.limits
  decayed : ∀ key cfg, m.limits key.limit = some cfg → ∀ later, now ≤ later →
    (m.bucket key).decayed cfg later = (m'.bucket key).decayed cfg later

theorem Alike.refl (now : ℤ) (m : RateLimitModule) : Alike now m m :=
  ⟨rfl, fun _ _ _ _ _ => rfl⟩

theorem Alike.trans {m'' : RateLimitModule} {before : ℤ} (h : Alike now m m')
    (h' : Alike before m' m'') (hle : before ≤ now) : Alike now m m'' where
  limits := h.limits.trans h'.limits
  decayed := by
    intro key cfg hcfg later hlater
    rw [h.decayed key cfg hcfg later hlater]
    rw [h.limits] at hcfg
    exact h'.decayed key cfg hcfg later (hle.trans hlater)

/-- Alike states answer a call alike, and stay alike. -/
theorem Alike.checkLimit (h : Alike now m m') (hnow : now ≤ call.now) :
    (m.checkLimit call).1 = (m'.checkLimit call).1 ∧
      Alike call.now (m.checkLimit call).2 (m'.checkLimit call).2 := by
  have hlater : Alike call.now m m' :=
    ⟨h.limits, fun key cfg hcfg later hle => h.decayed key cfg hcfg later (hnow.trans hle)⟩
  cases hlimit : m.limits call.limitName with
  | none =>
      have hlimit' := hlimit
      rw [h.limits] at hlimit'
      rw [checkLimit_unlimited hlimit, checkLimit_unlimited hlimit']
      exact ⟨rfl, hlater⟩
  | some cfg =>
      have hlimit' := hlimit
      rw [h.limits] at hlimit'
      have hcheck := BucketState.check_congr (h.decayed call.key cfg hlimit call.now hnow)
        call.limitName call.cost
      refine ⟨?_, ?_, ?_⟩
      · rw [checkLimit_limited hlimit, checkLimit_limited hlimit', hcheck]
      · rw [limits_checkLimit, limits_checkLimit, h.limits]
      · intro key cfg' hcfg' later hle
        by_cases hself : key = call.key
        · subst hself
          rw [bucket_checkLimit_self hlimit, bucket_checkLimit_self hlimit', hcheck]
        · rw [limits_checkLimit] at hcfg'
          rw [bucket_checkLimit_of_ne m hself, bucket_checkLimit_of_ne m' hself]
          exact hlater.decayed key cfg' hcfg' later hle

/-- A call that is refused on a settled bucket changes nothing. -/
theorem alike_refused (hrefused : (m.checkLimit call).1 ≠ none)
    (hsettled : ∀ cfg, m.limits call.limitName = some cfg →
      (m.bucket call.key).Settled cfg call.now)
    (hlast : ∀ last, (m.bucket call.key).lastUpdated = some last → last ≤ call.now) :
    Alike call.now (m.checkLimit call).2 m := by
  refine ⟨limits_checkLimit m call, fun key cfg hcfg later hlater => ?_⟩
  rw [limits_checkLimit] at hcfg
  by_cases hself : key = call.key
  · subst hself
    have hnonneg := BucketState.decay_nonneg cfg (m.bucket call.key) hlast
    rw [bucket_checkLimit_self hcfg]
    rw [checkLimit_limited hcfg] at hrefused
    rcases BucketState.check_cases cfg call.limitName call.cost call.now (m.bucket call.key)
      with ⟨hnone, -⟩ | ⟨-, hcheck⟩
    · exact absurd hnone hrefused
    · rw [hcheck]
      exact (BucketState.settled_iff hnonneg).mp (hsettled cfg hcfg) later hlater
  · rw [bucket_checkLimit_of_ne m hself]

/-- The calls that are allowed are allowed without the others too. -/
theorem Alike.accepted (h : Alike now m m') (hnow : ∀ call ∈ calls, now ≤ call.now)
    (horder : InOrder m calls) (hsettled : RefusesSettled m calls) :
    m'.accepted (m.accepted calls) = m.accepted calls := by
  induction calls generalizing m m' now with
  | nil => rfl
  | cons call calls ih =>
      have hcall := hnow call List.mem_cons_self
      have hcalls : ∀ other ∈ calls, call.now ≤ other.now := (List.pairwise_cons.mp horder.1).1
      obtain ⟨hsame, hstep⟩ := h.checkLimit hcall
      rw [accepted_cons m]
      by_cases hallowed : (m.checkLimit call).1 = none
      · rw [if_pos hallowed, accepted_cons m', if_pos (hsame ▸ hallowed),
          ih hstep hcalls horder.checkLimit hsettled.2]
      · rw [if_neg hallowed]
        have hrefused := alike_refused hallowed (hsettled.1 hallowed)
          fun last hlast => horder.2 call.key last hlast call List.mem_cons_self
        exact ih (hrefused.trans h hcall) hcalls horder.checkLimit hsettled.2

/-! ## Allowed calls -/

/-- What the calls for a bucket put into it. -/
def events (cfg : RateLimitConfig) (key : BucketKey) (calls : List LimitCall) : List (ℚ × ℚ) :=
  (calls.filter (·.key = key)).map fun call => (seconds call.now, (cfg.charge call.cost : ℚ))

theorem seconds_le_iff {t u : ℤ} : seconds t ≤ seconds u ↔ t ≤ u := by
  unfold seconds
  rw [div_le_div_iff_of_pos_right (by norm_num : (0 : ℚ) < 1000000000)]
  exact_mod_cast Iff.rfl

theorem charged_eq_inflow (cfg : RateLimitConfig) (key : BucketKey) (start stop : ℤ)
    (calls : List LimitCall) :
    (charged cfg key start stop calls : ℚ) =
      inflow (seconds start) (seconds stop) (events cfg key calls) := by
  induction calls with
  | nil => rfl
  | cons call calls ih =>
      unfold charged events at ih ⊢
      by_cases hkey : call.key = key
      · simp only [List.filter_cons, hkey, true_and, decide_true, if_true, List.map_cons]
        rw [inflow_cons, ← ih]
        simp only [seconds_le_iff]
        by_cases hinside : start ≤ call.now ∧ call.now ≤ stop
        · simp [hinside]
        · simp [hinside]
      · simpa only [List.filter_cons, hkey, false_and, decide_false, if_false,
          Bool.false_eq_true] using ih

/-- Where every call is allowed, the bucket is a vessel that leaks at the rate of the limit. -/
theorem metered (hall : m.accepted calls = calls) (horder : InOrder m calls)
    (hcfg : m.limits key.limit = some cfg) {last : ℤ}
    (hlast : (m.bucket key).lastUpdated = none ∨ (m.bucket key).lastUpdated = some last)
    (hlater : ∀ call ∈ calls, last ≤ call.now) :
    Metered cfg.rate cfg.max (m.bucket key).amount (seconds last) (events cfg key calls) := by
  induction calls generalizing m last with
  | nil => exact .nil
  | cons call calls ih =>
      have hcalls : ∀ other ∈ calls, call.now ≤ other.now := (List.pairwise_cons.mp horder.1).1
      have hcall := hlater call List.mem_cons_self
      rw [accepted_cons] at hall
      split at hall
      case isFalse =>
        -- a call fewer would be allowed than there are
        have hlength := (accepted_sublist (m.checkLimit call).2 calls).length_le
        rw [hall, List.length_cons] at hlength
        omega
      case isTrue hallowed =>
        have hrest := (List.cons.inj hall).2
        have hlimits : (m.checkLimit call).2.limits key.limit = some cfg := by
          rwa [limits_checkLimit]
        by_cases hkey : call.key = key
        · subst hkey
          have hcheck := hallowed
          rw [checkLimit_limited hcfg] at hcheck
          rcases BucketState.check_cases cfg call.limitName call.cost call.now (m.bucket call.key)
            with ⟨-, hroom, hbucket⟩ | ⟨hrefused, -⟩
          · have hupdated := (bucket_checkLimit_self hcfg).trans hbucket
            have hmetered := ih hrest horder.checkLimit hlimits
              (.inr (congrArg BucketState.lastUpdated hupdated)) hcalls
            rw [hupdated] at hmetered
            have hdecay := BucketState.decay_le cfg (m.bucket call.key) hlast hcall
            have hamount := BucketState.amount_decayed cfg call.now (m.bucket call.key)
            have hleast := le_max_right 0
              ((m.bucket call.key).amount - (m.bucket call.key).decay cfg call.now)
            rw [← hamount] at hleast
            have hcharge : (0 : ℚ) < cfg.charge call.cost := by
              exact_mod_cast cfg.charge_pos call.cost
            have hevents : events cfg call.key (call :: calls) =
                (seconds call.now, (cfg.charge call.cost : ℚ)) :: events cfg call.key calls := by
              simp [events]
            rw [hevents]
            have hfilled := (BucketState.decayed cfg call.now (m.bucket call.key)).nonneg
            refine .cons (seconds_le_iff.mpr hcall) hcharge.le ?_ ?_ hroom hmetered
            · linarith
            · linarith
          · exact absurd hcheck hrefused
        · have hevents : events cfg key (call :: calls) = events cfg key calls := by
            simp [events, hkey]
          have hbucket : (m.checkLimit call).2.bucket key = m.bucket key :=
            bucket_checkLimit_of_ne m (Ne.symm hkey)
          rw [hevents, ← hbucket]
          refine ih hrest horder.checkLimit hlimits ?_ fun other hother => ?_
          · rwa [hbucket]
          · exact hcall.trans (hcalls other hother)

theorem charged_le_of_accepted (hall : m.accepted calls = calls) (horder : InOrder m calls)
    (hcfg : m.limits key.limit = some cfg) {start stop : ℤ} (hwindow : start ≤ stop) :
    (charged cfg key start stop calls : ℚ) ≤
      cfg.max + seconds (stop - start) * cfg.max / seconds cfg.duration := by
  have hmax : (0 : ℚ) ≤ cfg.max := by exact_mod_cast cfg.max_nonneg
  have hmetered : ∃ last, Metered cfg.rate cfg.max (m.bucket key).amount (seconds last)
      (events cfg key calls) := by
    cases hlast : (m.bucket key).lastUpdated with
    | some last =>
        exact ⟨last, metered hall horder hcfg (.inr hlast) (horder.2 key last hlast)⟩
    | none =>
        cases calls with
        | nil => exact ⟨0, .nil⟩
        | cons call calls =>
            refine ⟨call.now, metered hall horder hcfg (.inl hlast) ?_⟩
            intro other hother
            rcases List.mem_cons.mp hother with rfl | hother
            · exact le_rfl
            · exact (List.pairwise_cons.mp horder.1).1 other hother
  obtain ⟨last, hmetered⟩ := hmetered
  have hinflow := hmetered.inflow_le cfg.rate_nonneg hmax (seconds_le_iff.mpr hwindow)
  have hleak : cfg.rate * (seconds stop - seconds start) =
      seconds (stop - start) * cfg.max / seconds cfg.duration := by
    unfold RateLimitConfig.rate seconds
    push_cast
    ring
  rw [charged_eq_inflow, ← hleak]
  exact hinflow

/-- Where no call is refused on a partly drained bucket, a limit keeps what it promises. -/
theorem checkLimit_bounded (horder : InOrder m calls) (hsettled : RefusesSettled m calls) :
    Limits m calls := by
  have hunaffected : m.accepted (m.accepted calls) = m.accepted calls := by
    cases calls with
    | nil => rfl
    | cons call calls =>
        refine (Alike.refl call.now m).accepted ?_ horder hsettled
        intro other hother
        rcases List.mem_cons.mp hother with rfl | hother
        · exact le_rfl
        · exact (List.pairwise_cons.mp horder.1).1 other hother
  refine ⟨fun key cfg hcfg start stop hwindow => ?_, hunaffected⟩
  exact charged_le_of_accepted hunaffected (horder.sublist (accepted_sublist m calls)) hcfg hwindow

/-! ## One more call -/

/-- The limiter after these calls. -/
def after (m : RateLimitModule) (calls : List LimitCall) : RateLimitModule :=
  calls.foldl (fun m call => (m.checkLimit call).2) m

theorem after_cons (m : RateLimitModule) (call : LimitCall) (calls : List LimitCall) :
    m.after (call :: calls) = (m.checkLimit call).2.after calls := rfl

theorem after_concat (m : RateLimitModule) (calls : List LimitCall) (call : LimitCall) :
    m.after (calls ++ [call]) = ((m.after calls).checkLimit call).2 := by
  rw [after, List.foldl_append]
  rfl

theorem limits_after (m : RateLimitModule) (calls : List LimitCall) :
    (m.after calls).limits = m.limits := by
  induction calls generalizing m with
  | nil => rfl
  | cons call calls ih => rw [after_cons, ih, limits_checkLimit]

theorem accepted_concat (m : RateLimitModule) (calls : List LimitCall) (call : LimitCall) :
    m.accepted (calls ++ [call]) = m.accepted calls ++
      if ((m.after calls).checkLimit call).1 = none then [call] else [] := by
  induction calls generalizing m with
  | nil => rw [List.nil_append, accepted_cons]; rfl
  | cons first calls ih =>
      rw [List.cons_append, accepted_cons, accepted_cons, ih, after_cons]
      split <;> rfl

theorem RefusesSettled.concat (h : RefusesSettled m calls)
    (hlast : ((m.after calls).checkLimit call).1 ≠ none → ∀ cfg,
      m.limits call.limitName = some cfg →
        ((m.after calls).bucket call.key).Settled cfg call.now) :
    RefusesSettled m (calls ++ [call]) := by
  induction calls generalizing m with
  | nil => exact ⟨hlast, trivial⟩
  | cons first calls ih =>
      obtain ⟨hfirst, hrest⟩ := h
      refine ⟨hfirst, ih hrest fun hrefused cfg hcfg => ?_⟩
      rw [limits_checkLimit] at hcfg
      exact hlast hrefused cfg hcfg

/-- A call looks at its limit and its bucket only. -/
theorem checkLimit_agrees (hlimits : m.limits = m'.limits)
    (hbucket : m.bucket call.key = m'.bucket call.key) :
    (m.checkLimit call).1 = (m'.checkLimit call).1 ∧
      (m.checkLimit call).2.bucket call.key = (m'.checkLimit call).2.bucket call.key := by
  cases hlimit : m.limits call.limitName with
  | none =>
      have hlimit' := hlimit
      rw [hlimits] at hlimit'
      rw [checkLimit_unlimited hlimit, checkLimit_unlimited hlimit']
      exact ⟨rfl, hbucket⟩
  | some cfg =>
      have hlimit' := hlimit
      rw [hlimits] at hlimit'
      rw [bucket_checkLimit_self hlimit, bucket_checkLimit_self hlimit', checkLimit_limited hlimit,
        checkLimit_limited hlimit', hbucket]
      exact ⟨rfl, rfl⟩

theorem charged_append (cfg : RateLimitConfig) (key : BucketKey) (start stop : ℤ)
    (calls others : List LimitCall) :
    charged cfg key start stop (calls ++ others) =
      charged cfg key start stop calls + charged cfg key start stop others := by
  rw [charged, List.filter_append, List.map_append, List.sum_append]
  rfl

/-! ### Two sequences of calls -/

/-- Ten in ten seconds. -/
def tenInTen : RateLimitModule :=
  newRateLimitModule fun name =>
    if name = "siteCreation".toList then some ⟨10, 10000000000, 0, by decide, by decide⟩ else none

/-- A call of this cost after so many seconds. -/
def siteCall (cost : ℤ) (after : ℕ) : LimitCall :=
  ⟨"ip:192.0.2.1".toList, "siteCreation".toList, cost, after * 1000000000⟩

/-- No bucket was used yet, so only the order of the calls counts. -/
theorem inOrder_tenInTen (h : calls.Pairwise fun call later => call.now ≤ later.now) :
    InOrder tenInTen calls :=
  ⟨h, fun _ _ hlast => by cases hlast⟩

theorem checkLimit_bounded_refused :
    tenInTen.accepted [siteCall 4 0, siteCall 8 0, siteCall 8 2] = [siteCall 4 0, siteCall 8 2] ∧
      Limits tenInTen [siteCall 4 0, siteCall 8 0, siteCall 8 2] := by
  have haccepted : (tenInTen.checkLimit (siteCall 4 0)).1 = none := by decide +kernel
  have hrefused : ((tenInTen.checkLimit (siteCall 4 0)).2.checkLimit (siteCall 8 0)).1 ≠ none := by
    decide +kernel
  have hlater : (((tenInTen.checkLimit (siteCall 4 0)).2.checkLimit (siteCall 8 0)).2.checkLimit
      (siteCall 8 2)).1 = none := by decide +kernel
  constructor
  · rw [accepted_cons, if_pos haccepted, accepted_cons, if_neg hrefused, accepted_cons,
      if_pos hlater]
    rfl
  · refine checkLimit_bounded (inOrder_tenInTen (by decide +kernel)) ⟨?_, ?_, ?_, trivial⟩
    · exact fun h => absurd haccepted h
    · rintro - cfg ⟨⟩
      exact .inl (by decide +kernel)
    · exact fun h => absurd hlater h

/-- Asking again every second drains the bucket in four. -/
theorem checkLimit_exceeded :
    ∃ m calls, InOrder m calls ∧ ¬ Limits m calls ∧
      m.accepted (m.accepted calls) ≠ m.accepted calls := by
  let calls := [siteCall 10 0, siteCall 10 1, siteCall 10 2, siteCall 10 3, siteCall 10 4]
  have haccepted : tenInTen.accepted calls = [siteCall 10 0, siteCall 10 4] := by decide +kernel
  refine ⟨tenInTen, calls, inOrder_tenInTen (by decide +kernel), fun hlimits => ?_, ?_⟩
  · have hbound := hlimits.bounded (siteCall 10 0).key _ rfl 0 4000000000 (by decide)
    rw [haccepted] at hbound
    have hexceeded : ¬ ((20 : ℤ) : ℚ) ≤
        ((10 : ℤ) : ℚ) + seconds (4000000000 - 0) * ((10 : ℤ) : ℚ) / seconds 10000000000 := by
      decide +kernel
    exact hexceeded hbound
  · rw [haccepted]
    decide +kernel

end RateLimitModule

end Grits
