import Aquifer.Core.Breaker

/-! What becomes of a target's `Retry-After`: the wait of a job that is retried, the end of a job
whose wait would outlast its deadline, and the cooldown of the breaker. -/
namespace Aquifer

/-- The seconds, multiplied into nanoseconds, are an `int64`. -/
def FitsDuration (seconds : Int) : Prop := seconds * second < 9223372036854775808

instance (seconds : Int) : Decidable (FitsDuration seconds) := inferInstanceAs (Decidable (_ < _))

section Durations

variable {s s' limit : Int}

theorem second_pos : (0 : Int) < second := by decide

theorem seconds_nonneg (h : 0 ≤ s) : 0 ≤ s * second := Int.mul_nonneg h second_pos.le

/-- The multiples of an `int64`, as `int64` values, grow from the first to the last exactly if that
one does not overflow: the first multiple that does is negative. -/
theorem int64_multiples_iff {k : Int} (hlow : -9223372036854775808 ≤ k)
    (hhigh : k < 9223372036854775808) :
    (∀ s s', 1 ≤ s → s ≤ s' → s' ≤ limit →
      0 ≤ int64 (s * k) ∧ int64 (s * k) ≤ int64 (s' * k)) ↔
    limit < 1 ∨ 0 ≤ k ∧ limit * k < 9223372036854775808 := by
  constructor
  · intro h
    by_contra hcon
    obtain ⟨hlimit, hover⟩ := not_or.mp hcon
    have hk : 0 ≤ k := by
      have hone := (h 1 1 (by omega) (by omega) (by omega)).1
      rwa [Int.one_mul, int64_of_range hlow hhigh] at hone
    have hover : 9223372036854775808 ≤ limit * k := not_lt.mp fun hlt => hover ⟨hk, hlt⟩
    have hkpos : 0 < k := by
      refine lt_of_le_of_ne hk ?_
      rintro rfl
      rw [Int.mul_zero] at hover
      omega
    have hbefore := Int.ediv_mul_le 9223372036854775807 hkpos.ne'
    have hafter := Int.lt_ediv_add_one_mul_self 9223372036854775807 hkpos
    have hle : 9223372036854775807 / k < limit :=
      Int.lt_of_mul_lt_mul_right (show _ * k < _ by omega) hk
    have hpos : 0 ≤ 9223372036854775807 / k := Int.ediv_nonneg (by decide) hk
    have hnonneg := (h (9223372036854775807 / k + 1) _ (by omega) le_rfl (by omega)).1
    rw [Int.add_mul, Int.one_mul] at hnonneg hafter
    have hwrap := int64_le_of_over (n := 9223372036854775807 / k * k + k) (by omega)
    omega
  · rintro (hempty | ⟨hk, hfits⟩) s s' hs hle hlimit
    · omega
    · have hmono := Int.mul_le_mul_of_nonneg_right hle hk
      have htop := Int.mul_le_mul_of_nonneg_right hlimit hk
      have hnonneg : 0 ≤ s * k := Int.mul_nonneg (by omega) hk
      rw [int64_of_range (by omega) (by omega), int64_of_range (by omega) (by omega)]
      exact ⟨hnonneg, hmono⟩

theorem FitsDuration.of_le (h : FitsDuration s') (hle : s ≤ s') : FitsDuration s :=
  Int.lt_of_le_of_lt (Int.mul_le_mul_of_nonneg_right hle second_pos.le) h

theorem retryDelay_eq (h0 : 0 ≤ s) (h : FitsDuration s) (backoff : Int) :
    retryDelay (some s) backoff = s * second := by
  rw [retryDelay, if_pos h0]
  exact int64_of_range (Int.le_trans (by decide) (seconds_nonneg h0)) h

/-- The cooldowns that answers of at least `low` and at most `limit` seconds ask for are not
negative and grow with the seconds. -/
def BreakerEnv.Graded (env : BreakerEnv) (low limit : Int) : Prop :=
  ∀ (resp resp' : BreakerAnswer) (s s' : Int), resp.retryAfter = some s →
    resp'.retryAfter = some s' → low ≤ s → s ≤ s' → s' ≤ limit →
    0 ≤ env.breakerCooldown resp ∧ env.breakerCooldown resp ≤ env.breakerCooldown resp'

variable {env : BreakerEnv} {resp : BreakerAnswer}

theorem breakerCooldown_pos (hs : resp.retryAfter = some s) (h0 : 0 < s) :
    env.breakerCooldown resp = int64 (s * int64 (env.retryMultiplier * second)) := by
  rw [BreakerEnv.breakerCooldown, hs]
  dsimp only
  rw [if_pos h0, Int.mul_assoc]
  exact (Int.mul_bmod_bmod ..).symm

theorem breakerCooldown_zero (hs : resp.retryAfter = some 0) :
    env.breakerCooldown resp = int64 (env.defaultCooldown * second) := by
  rw [BreakerEnv.breakerCooldown, hs]
  rfl

theorem graded_one_iff : env.Graded 1 limit ↔
    limit < 1 ∨ 0 ≤ int64 (env.retryMultiplier * second) ∧
      limit * int64 (env.retryMultiplier * second) < 9223372036854775808 := by
  have hlow : -9223372036854775808 ≤ int64 (env.retryMultiplier * second) :=
    Int.le_bmod (by decide)
  have hhigh : int64 (env.retryMultiplier * second) < 9223372036854775808 :=
    Int.bmod_lt (by decide)
  rw [← int64_multiples_iff hlow hhigh]
  constructor
  · intro h s s' hs hle hlimit
    have hpair := h { retryAfter := some s } { retryAfter := some s' } s s' rfl rfl hs hle hlimit
    rwa [breakerCooldown_pos rfl (by omega : 0 < s),
      breakerCooldown_pos rfl (by omega : 0 < s')] at hpair
  · intro h resp resp' s s' hr hr' hs hle hlimit
    rw [breakerCooldown_pos hr (by omega), breakerCooldown_pos hr' (by omega)]
    exact h s s' hs hle hlimit

/-- An answer of zero seconds counts as one without any, and asks for the default. -/
theorem graded_zero_iff : env.Graded 0 limit ↔
    limit < 0 ∨ 0 ≤ int64 (env.defaultCooldown * second) ∧ (limit < 1 ∨
      int64 (env.defaultCooldown * second) ≤ int64 (env.retryMultiplier * second) ∧
        limit * int64 (env.retryMultiplier * second) < 9223372036854775808) := by
  have hfirst : ∀ {resp : BreakerAnswer}, resp.retryAfter = some 1 →
      env.breakerCooldown resp = int64 (env.retryMultiplier * second) := by
    intro resp hr
    rw [breakerCooldown_pos hr one_pos, Int.one_mul]
    exact Int.bmod_bmod
  constructor
  · intro h
    refine or_iff_not_imp_left.mpr fun hlimit => ?_
    have hzero := (h { retryAfter := some 0 } { retryAfter := some 0 } 0 0 rfl rfl le_rfl le_rfl
      (not_lt.mp hlimit)).1
    rw [breakerCooldown_zero rfl] at hzero
    refine ⟨hzero, or_iff_not_imp_left.mpr fun hlimit => ?_⟩
    have hone := (h { retryAfter := some 0 } { retryAfter := some 1 } 0 1 rfl rfl le_rfl zero_le_one
      (not_lt.mp hlimit)).2
    rw [breakerCooldown_zero rfl, hfirst rfl] at hone
    have hfrom := graded_one_iff.mp fun resp resp' s s' hr hr' hs =>
      h resp resp' s s' hr hr' (by omega)
    exact ⟨hone, (hfrom.resolve_left hlimit).2⟩
  · intro h resp resp' s s' hr hr' hs hle hlimit
    obtain ⟨hzero, hrest⟩ := h.resolve_left (by omega)
    by_cases hs' : s' = 0
    · obtain rfl : s = 0 := by omega
      subst hs'
      rw [breakerCooldown_zero hr, breakerCooldown_zero hr']
      exact ⟨hzero, le_rfl⟩
    · obtain ⟨hstart, hfits⟩ := hrest.resolve_left (by omega)
      have hgraded := graded_one_iff.mpr (.inr ⟨hzero.trans hstart, hfits⟩)
      by_cases hpos : s = 0
      · subst hpos
        rw [breakerCooldown_zero hr]
        have hup := (hgraded { retryAfter := some 1 } resp' 1 s' rfl hr' le_rfl (by omega) hlimit).2
        rw [hfirst rfl] at hup
        exact ⟨hzero, hstart.trans hup⟩
      · exact hgraded resp resp' s s' hr hr' (by omega) hle hlimit

end Durations

section Attempt

variable {job : Job} {x : Exchange} {s code : Int} {conc : Option Int}

theorem execute_turnedAway (hfresh : job.executionExpired x.startedAt = false)
    (hx : x.response = .answer code (some s) conc) (hcode : retryableStatus code = true) :
    execute job x = executeFailed job x ("upstream returned " ++ toString code) (some s) conc
      false := by
  rw [execute, if_neg (by simp [hfresh]), hx]
  exact if_pos hcode

theorem executeFailed_retry {reason text : String} {after : Option Int} {loc : Bool} {time : Time}
    (h : (executeFailed job x reason after conc loc).2.2.retry = some (time, text)) :
    time = x.now + retryDelay after x.backoff ∧ time < job.retryDeadline := by
  unfold executeFailed at h
  dsimp only at h
  split at h
  · cases h
  · next hcond =>
    cases h
    rw [Bool.or_eq_true, not_or] at hcond
    exact ⟨rfl, by simpa using hcond.2⟩

theorem executeFailed_exhausted {reason : String} {after : Option Int} {loc : Bool}
    (h : job.retryDeadline ≤ x.now + retryDelay after x.backoff) :
    (executeFailed job x reason after conc loc).1 = .terminal .failed
      (if job.hasRetriesLeft then "retry_window_exhausted: " ++ reason else reason) := by
  have hlate : ¬ x.now + retryDelay after x.backoff < job.retryDeadline := not_lt.mpr h
  unfold executeFailed
  simp [hlate]

end Attempt

/-- Up to a limit, every `Retry-After` is waited out exactly if the limit's nanoseconds fit in a
duration: the waits are not negative and grow with the seconds, a retry is planned at that distance
and before the deadline, and a wait that reaches the deadline ends the job. The breaker's cooldowns
are not negative and grow exactly if those of the multiplier do and the default, which stands for
zero seconds, is not negative and no longer than that of one second. -/
theorem retryAfter_honoured (limit : Int) :
    ((∀ s s', 0 ≤ s → s ≤ s' → s' ≤ limit →
      (∀ backoff backoff', 0 ≤ retryDelay (some s) backoff ∧
        retryDelay (some s) backoff ≤ retryDelay (some s') backoff') ∧
      ∀ (job : Job) (x : Exchange) (code : Int) (conc : Option Int),
        job.executionExpired x.startedAt = false → x.response = .answer code (some s) conc →
        retryableStatus code = true →
        (∀ time reason, (execute job x).2.2.retry = some (time, reason) →
          x.now ≤ time ∧ time = x.now + s * second ∧ time < job.retryDeadline) ∧
        (job.retryDeadline ≤ x.now + s * second →
          (execute job x).1 = .terminal .failed
            (if job.hasRetriesLeft then
              "retry_window_exhausted: " ++ ("upstream returned " ++ toString code)
            else "upstream returned " ++ toString code))) ↔
      FitsDuration limit) ∧
    ∀ env : BreakerEnv,
      (env.Graded 1 limit ↔ limit < 1 ∨ 0 ≤ int64 (env.retryMultiplier * second) ∧
        limit * int64 (env.retryMultiplier * second) < 9223372036854775808) ∧
      (env.Graded 0 limit ↔ limit < 0 ∨ 0 ≤ int64 (env.defaultCooldown * second) ∧ (limit < 1 ∨
        int64 (env.defaultCooldown * second) ≤ int64 (env.retryMultiplier * second) ∧
          limit * int64 (env.retryMultiplier * second) < 9223372036854775808)) := by
  refine ⟨⟨fun h => ?_, fun hlimit s s' hs hle hs' => ?_⟩,
    fun env => ⟨graded_one_iff, graded_zero_iff⟩⟩
  · have hmultiples := @int64_multiples_iff limit second (by decide) (by decide)
    refine (hmultiples.mp fun s s' hs hle hs' => ?_).elim (fun hsmall => ?_) And.right
    · have hdelay := (h s s' (by omega) hle hs').1 0 0
      rwa [retryDelay, retryDelay, if_pos (by omega), if_pos (by omega)] at hdelay
    · exact FitsDuration.of_le (show FitsDuration 0 by decide) (by omega)
  have hfits' := hlimit.of_le hs'
  have hfits := hfits'.of_le hle
  refine ⟨fun backoff backoff' => ?_, fun job x code conc hfresh hx hcode => ?_⟩
  · rw [retryDelay_eq hs hfits, retryDelay_eq (Int.le_trans hs hle) hfits']
    exact ⟨seconds_nonneg hs, Int.mul_le_mul_of_nonneg_right hle second_pos.le⟩
  · have hdelay := retryDelay_eq hs hfits x.backoff
    rw [execute_turnedAway hfresh hx hcode]
    refine ⟨fun time reason hretry => ?_, fun hlate => ?_⟩
    · obtain ⟨rfl, hbefore⟩ := executeFailed_retry hretry
      rw [hdelay] at hbefore ⊢
      exact ⟨le_add_of_nonneg_right (seconds_nonneg hs), rfl, hbefore⟩
    · rw [← hdelay] at hlate
      exact executeFailed_exhausted hlate

/-- A request that is turned away at the epoch with a `Retry-After` of so many seconds. -/
def turnedAway (s : Int) : Exchange :=
  { startedAt := 0, response := .answer 503 (some s) none, now := 0 }

/-- A job that may be retried as often as its day allows. -/
def patientJob : Job := { id := "a", maxRetries := -1 }

/-- A wait of two days is past the job's day. -/
theorem retryAfter_two_days : patientJob.retryDeadline ≤ (turnedAway 172800).now + 172800 * second ∧
    (execute patientJob (turnedAway 172800)).1 =
      .terminal .failed "retry_window_exhausted: upstream returned 503" := by
  obtain ⟨-, hjob⟩ := (retryAfter_honoured 172800).1.mpr (by decide) 172800 172800 (by decide)
    (by decide) (by decide)
  have hlate : patientJob.retryDeadline ≤ (turnedAway 172800).now + 172800 * second := by decide
  exact ⟨hlate, (hjob patientJob (turnedAway 172800) 503 none rfl rfl rfl).2 hlate⟩

/-- Past 292 years the product wraps: the delay is negative, or a `Retry-After` of 584 years is
retried within a third of a second. The breaker's product has its multiplier in it and wraps
sooner; and no `Retry-After` of a second is as long a cooldown as one of zero. -/
theorem retryAfter_wraps : retryDelay (some 9223372037) 0 < 0 ∧
    (execute patientJob (turnedAway 18446744074)).2.2.retry =
      some (290448384, "upstream returned 503") ∧
    retryDelay (some 18446744074) 0 < retryDelay (some 1) 0 ∧
    BreakerEnv.breakerCooldown {} { retryAfter := some 3074457346 } < 0 ∧
    BreakerEnv.breakerCooldown {} { retryAfter := some 1 } <
      BreakerEnv.breakerCooldown {} { retryAfter := some 0 } := by
  decide +kernel

end Aquifer
