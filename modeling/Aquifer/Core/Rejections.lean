import Mathlib.Algebra.Order.Ring.Int
import Aquifer.Jobs
import Aquifer.Lib.Texts
import Aquifer.Lib.Trace

/-! The limits that protect the process itself, the streak of refusals they lead to, and the wait
that a refused caller is asked for. -/
namespace Aquifer.Admission

def maxRetryAfterSeconds : Int := 60

/-- A limit of zero is off, and a wait of zero stands for the default. -/
structure Limits where
  memoryLimitMB : Int := 0
  dbMaxBytes : Int := 0
  retryAfterSeconds : Int := 0
  maxSyncLagMS : Int := 0
  memoryHardLimitPercent : Int := 0

structure Decision where
  allowed : Bool
  reason : String := ""
  limit : Int := 0
  current : Int := 0
  /-- A memory refusal below the hard limit, which the caller decides. -/
  soft : Bool := false
deriving DecidableEq, Repr

structure Controller where
  limits : Limits
  dbPath : String := ""
  rejectStreak : Int := 0

/-- What one `Check` reads of the process. -/
structure Readings where
  memoryMB : Int := 0
  dbSizeBytes : Int := 0
  syncLagMS : Int := 0

/-- The calls that move the streak. -/
inductive Call
  | check (r : Readings)
  | refused
  | admitted

namespace Controller

variable (c : Controller)

def memoryHardLimitMB : Int :=
  let pct := c.limits.memoryHardLimitPercent
  if pct ≤ 100 then c.limits.memoryLimitMB
  else (int64 (c.limits.memoryLimitMB * pct)).tdiv 100

def refused : Controller := { c with rejectStreak := int64 (c.rejectStreak + 1) }

def admitted : Controller := { c with rejectStreak := 0 }

def overMemory (r : Readings) : Bool :=
  0 < c.limits.memoryLimitMB && c.limits.memoryLimitMB < r.memoryMB

def check (r : Readings) : Controller × Decision :=
  let memory : Decision :=
    { allowed := false, reason := "memory", limit := c.limits.memoryLimitMB, current := r.memoryMB }
  if c.overMemory r ∧ c.memoryHardLimitMB < r.memoryMB then (c.refused, memory)
  else if 0 < c.limits.dbMaxBytes ∧ c.dbPath ≠ "" ∧ c.limits.dbMaxBytes < r.dbSizeBytes then
    (c.refused, { allowed := false, reason := "db_size", limit := c.limits.dbMaxBytes,
                  current := r.dbSizeBytes })
  else if 0 < c.limits.maxSyncLagMS ∧ c.limits.maxSyncLagMS < r.syncLagMS then
    (c.refused, { allowed := false, reason := "sync_lag", limit := c.limits.maxSyncLagMS,
                  current := r.syncLagMS })
  -- the other checks come before a refusal that the caller may overrule
  else if c.overMemory r then (c, { memory with soft := true })
  else (c.admitted, { allowed := true })

def base : Int := if c.limits.retryAfterSeconds ≤ 0 then 5 else c.limits.retryAfterSeconds

/-- The loop over what is left of its counter's range: the backoff, and how often the body ran. -/
def backoffLoop : Nat → Int → Int × Nat
  | 0, backoff => (backoff, 0)
  | left + 1, backoff =>
    if backoff < maxRetryAfterSeconds then
      let (result, turns) := backoffLoop left (int64 (backoff * 2))
      (result, turns + 1)
    else (backoff, 0)

def retryAfterSeconds : Int :=
  if c.rejectStreak ≤ 1 then c.base
  else
    let backoff := (backoffLoop (c.rejectStreak - 1).toNat c.base).1
    if maxRetryAfterSeconds < backoff then maxRetryAfterSeconds else backoff

def step : Call → Option Controller
  | .check r => some (c.check r).1
  | .refused => some c.refused
  | .admitted => some c.admitted

def withStreak (streak : Int) : Controller := { c with rejectStreak := streak }

variable {c} {d : Controller} {b : Int} {n : Nat}

theorem base_pos (c : Controller) : 0 < c.base := by
  unfold base
  split
  · decide
  · omega

/-! ### The loop -/

/-- The body runs until the backoff reaches the most that is asked for or the counter its end, and
doubles exactly. -/
theorem backoffLoop_spec (hb : 0 < b) : ∃ k ≤ n, backoffLoop n b = (b * 2 ^ k, k) ∧
    (∀ j < k, b * 2 ^ j < maxRetryAfterSeconds) ∧ (k = n ∨ maxRetryAfterSeconds ≤ b * 2 ^ k) := by
  induction n generalizing b with
  | zero => exact ⟨0, le_rfl, by simp [backoffLoop], by simp, .inl rfl⟩
  | succ n ih =>
    by_cases hlt : b < maxRetryAfterSeconds
    · -- under the cap, doubling stays far from the end of the range
      have hdouble : int64 (b * 2) = b * 2 := by
        unfold maxRetryAfterSeconds at hlt
        exact int64_of_range (by omega) (by omega)
      have hpow : ∀ k, b * 2 * 2 ^ k = b * 2 ^ (k + 1) := by
        intro k
        rw [pow_succ, mul_assoc, mul_comm 2]
      obtain ⟨k, hk, hloop, hbelow, hend⟩ := ih (b := b * 2) (by omega)
      refine ⟨k + 1, by omega, ?_, fun j hj => ?_, ?_⟩
      · rw [backoffLoop, if_pos hlt, hdouble, hloop, hpow]
      · cases j with
        | zero => simpa using hlt
        | succ j => exact hpow j ▸ hbelow j (by omega)
      · exact hend.imp (congrArg (· + 1)) fun hle => hpow k ▸ hle
    · refine ⟨0, by omega, ?_, by simp, .inr ?_⟩
      · rw [backoffLoop, if_neg hlt]
        simp
      · simpa using not_lt.mp hlt

theorem mul_pow_mono {i j : Nat} (hb : 0 < b) (h : i ≤ j) : b * 2 ^ i ≤ b * 2 ^ j :=
  Int.mul_le_mul_of_nonneg_left (pow_le_pow_right₀ (by decide) h) hb.le

theorem min_backoffLoop (hb : 0 < b) :
    min maxRetryAfterSeconds (backoffLoop n b).1 = min maxRetryAfterSeconds (b * 2 ^ n) := by
  obtain ⟨k, hk, hloop, -, hend⟩ := backoffLoop_spec (n := n) hb
  rw [hloop]
  rcases hend with rfl | hle
  · rfl
  · rw [min_eq_left hle, min_eq_left (hle.trans (mul_pow_mono hb hk))]

theorem retryAfterSeconds_eq (c : Controller) : c.retryAfterSeconds =
    if c.rejectStreak ≤ 1 then c.base
    else min maxRetryAfterSeconds (c.base * 2 ^ (c.rejectStreak - 1).toNat) := by
  rw [← min_backoffLoop c.base_pos, retryAfterSeconds]
  split
  · rfl
  · dsimp only
    split
    · next h => exact (min_eq_left h.le).symm
    · next h => exact (min_eq_right (not_lt.mp h)).symm

/-- Doubling something positive runs a logarithmic number of times before it reaches the most that
is asked for, and on the way stays in the range of the machine's integers. -/
theorem backoffLoop_bounded (hb : 0 < b) (n : Nat) : ∃ k ≤ Nat.log2 maxRetryAfterSeconds.toNat + 1,
    backoffLoop n b = (b * 2 ^ k, k) ∧ ∀ j < k, Texts.isInt64 (b * 2 ^ (j + 1)) := by
  obtain ⟨k, -, hloop, hbelow, -⟩ := backoffLoop_spec (n := n) hb
  refine ⟨k, ?_, hloop, fun j hj => ?_⟩
  · by_contra hlong
    have hlog : Nat.log2 maxRetryAfterSeconds.toNat + 1 = 6 := by decide
    have hsix : b * 2 ^ 6 < maxRetryAfterSeconds := hbelow 6 (by omega)
    unfold maxRetryAfterSeconds at hsix
    omega
  · have hlt : b * 2 ^ j < maxRetryAfterSeconds := hbelow j hj
    have hpos : 0 < b * 2 ^ j := mul_pos hb (pow_pos (by decide) j)
    have hdouble : b * 2 ^ (j + 1) = b * 2 ^ j * 2 := by rw [pow_succ, mul_assoc]
    unfold maxRetryAfterSeconds at hlt
    simp only [Texts.isInt64, hdouble, decide_eq_true_eq, Bool.and_eq_true]
    omega

/-! ### The wait and the streak -/

theorem retryAfterSeconds_withStreak {s : Int} (hs : ¬ s ≤ 1) :
    (c.withStreak s).retryAfterSeconds = min maxRetryAfterSeconds (c.base * 2 ^ (s - 1).toNat) :=
  (retryAfterSeconds_eq (c.withStreak s)).trans (if_neg hs)

/-- No wait is under the base, as long as the base is not over the cap. -/
theorem base_le_retryAfterSeconds (hbase : c.base ≤ maxRetryAfterSeconds) :
    c.base ≤ c.retryAfterSeconds := by
  rw [retryAfterSeconds_eq]
  split
  · exact le_rfl
  · refine le_min hbase ?_
    simpa using mul_pow_mono (i := 0) c.base_pos (Nat.zero_le (c.rejectStreak - 1).toNat)

theorem retryAfterSeconds_mono (hbase : c.base ≤ maxRetryAfterSeconds) {s t : Int} (hst : s ≤ t) :
    (c.withStreak s).retryAfterSeconds ≤ (c.withStreak t).retryAfterSeconds := by
  by_cases hs : s ≤ 1
  · have hfirst : (c.withStreak s).retryAfterSeconds = c.base := if_pos hs
    rw [hfirst]
    exact base_le_retryAfterSeconds (c := c.withStreak t) hbase
  · have ht : ¬ t ≤ 1 := by omega
    rw [retryAfterSeconds_withStreak hs, retryAfterSeconds_withStreak ht]
    refine min_le_min_left _ (mul_pow_mono c.base_pos ?_)
    exact Int.toNat_le_toNat (Int.sub_le_sub_right hst 1)

/-- A base over the cap is asked for at the first refusal only. -/
theorem retryAfterSeconds_two (hbase : maxRetryAfterSeconds ≤ c.base) :
    (c.withStreak 2).retryAfterSeconds = maxRetryAfterSeconds := by
  rw [retryAfterSeconds_withStreak (by decide)]
  have hdouble : c.base ≤ c.base * 2 ^ (2 - 1) := by
    have := c.base_pos
    omega
  exact min_eq_left (hbase.trans hdouble)

theorem base_le_cap_iff :
    c.base ≤ maxRetryAfterSeconds ↔ c.limits.retryAfterSeconds ≤ maxRetryAfterSeconds := by
  unfold base maxRetryAfterSeconds
  split <;> omega

theorem configured_le_base : c.limits.retryAfterSeconds ≤ c.base := by
  unfold base
  split <;> omega

/-- The wait grows with the streak, and is never under the configured base, exactly when that base
is not over the cap; the doubling stays exact and runs a logarithmic number of times in any case. -/
theorem backing_off_never_shortens_iff (c : Controller) :
    ((∀ s t : Int, s ≤ t →
        (c.withStreak s).retryAfterSeconds ≤ (c.withStreak t).retryAfterSeconds) ↔
      c.limits.retryAfterSeconds ≤ maxRetryAfterSeconds) ∧
    ((∀ s : Int, c.limits.retryAfterSeconds ≤ (c.withStreak s).retryAfterSeconds) ↔
      c.limits.retryAfterSeconds ≤ maxRetryAfterSeconds) ∧
    ∀ s : Int, ∃ k ≤ Nat.log2 maxRetryAfterSeconds.toNat + 1,
      backoffLoop (s - 1).toNat c.base = (c.base * 2 ^ k, k) ∧
      ∀ j < k, Texts.isInt64 (c.base * 2 ^ (j + 1)) := by
  refine ⟨⟨fun hmono => ?_, fun hcap s t hst => ?_⟩, ⟨fun hleast => ?_, fun hcap s => ?_⟩,
    fun s => backoffLoop_bounded c.base_pos (s - 1).toNat⟩
  · by_contra hcap
    have hbase : ¬ c.base ≤ maxRetryAfterSeconds := mt base_le_cap_iff.mp hcap
    have htwo := hmono 1 2 (by decide)
    rw [retryAfterSeconds_two (not_le.mp hbase).le] at htwo
    exact hbase htwo
  · exact retryAfterSeconds_mono (base_le_cap_iff.mpr hcap) hst
  · by_contra hcap
    have hbase : ¬ c.base ≤ maxRetryAfterSeconds := mt base_le_cap_iff.mp hcap
    have htwo := hleast 2
    rw [retryAfterSeconds_two (not_le.mp hbase).le] at htwo
    exact hcap htwo
  · exact configured_le_base.trans
      (base_le_retryAfterSeconds (c := c.withStreak s) (base_le_cap_iff.mpr hcap))

/-- With a base of 5 the waits are 5, 10, 20, 40 and then the cap. -/
theorem base_five_never_shortens :
    let c : Controller := { limits := { memoryLimitMB := 1, retryAfterSeconds := 5 } }
    (∀ s t : Int, s ≤ t →
      (c.withStreak s).retryAfterSeconds ≤ (c.withStreak t).retryAfterSeconds) ∧
    [0, 1, 2, 3, 4, 5, 6, 7].map (fun s => (c.withStreak s).retryAfterSeconds) =
      [5, 5, 10, 20, 40, 60, 60, 60] :=
  ⟨(backing_off_never_shortens_iff _).1.mpr (by decide), by decide⟩

/-- A base of two minutes: the second refusal in a row asks for half the wait of the first, and for
less than was configured. -/
theorem second_refusal_shortens_wait :
    let c : Controller := { limits := { memoryLimitMB := 1, retryAfterSeconds := 120 } }
    ∃ first second, c.step (.check { memoryMB := 2 }) = some first ∧
      first.step (.check { memoryMB := 2 }) = some second ∧
      first = c.withStreak 1 ∧ second = c.withStreak 2 ∧
      first.retryAfterSeconds = 120 ∧ second.retryAfterSeconds = 60 ∧
      ¬ first.retryAfterSeconds ≤ second.retryAfterSeconds ∧
      ¬ c.limits.retryAfterSeconds ≤ second.retryAfterSeconds :=
  ⟨_, _, rfl, rfl, rfl, rfl, by decide⟩

/-! ### Runs of the controller -/

/-- A call that lets no request in, while the streak can still be counted. -/
def Refusing (c : Controller) : Call → Prop
  | .check r => (c.check r).2.allowed = false ∧ c.rejectStreak < 9223372036854775807
  | .refused => c.rejectStreak < 9223372036854775807
  | .admitted => False

/-- What a check does to the streak is said by its decision: it restarts with a request that is let
in, stays where the caller still decides, and otherwise counts one more. -/
theorem check_cases (c : Controller) (r : Readings) :
    (c.check r).1 = c.admitted ∧ (c.check r).2.allowed = true ∨
    (c.check r).1 = c ∧ (c.check r).2.allowed = false ∧ (c.check r).2.soft = true ∨
    (c.check r).1 = c.refused ∧ (c.check r).2.allowed = false ∧ (c.check r).2.soft = false := by
  unfold check
  dsimp only
  split_ifs <;> simp

theorem rejectStreak_refused (hlow : 0 ≤ c.rejectStreak)
    (hroom : c.rejectStreak < 9223372036854775807) :
    c.refused.rejectStreak = c.rejectStreak + 1 :=
  int64_of_range (by omega) (by omega)

/-- What a run of refusals keeps, seen from where it began. -/
structure Later (c d : Controller) : Prop where
  same : c.withStreak d.rejectStreak = d
  nonneg : 0 ≤ d.rejectStreak
  grown : c.rejectStreak ≤ d.rejectStreak

theorem later_refused {e : Controller} (h : Later c d)
    (hroom : d.rejectStreak < 9223372036854775807)
    (he : d.refused = e) : Later c e := by
  have hstreak := rejectStreak_refused h.nonneg hroom
  subst he
  have hnonneg := h.nonneg
  have hgrown := h.grown
  refine ⟨?_, by omega, by omega⟩
  rw [← h.same]
  rfl

theorem later_step {e : Controller} {call : Call} (h : Later c d) (hrefusing : d.Refusing call)
    (he : d.step call = some e) : Later c e := by
  cases call with
  | check r =>
    obtain ⟨hallowed, hroom⟩ := hrefusing
    have he : (d.check r).1 = e := Option.some.inj he
    rcases check_cases d r with ⟨-, hok⟩ | ⟨hsame, -⟩ | ⟨hrefused, -⟩
    · rw [hallowed] at hok
      cases hok
    · exact hsame.symm.trans he ▸ h
    · exact later_refused h hroom (hrefused.symm.trans he)
  | refused => exact later_refused h hrefusing (Option.some.inj he)
  | admitted => exact hrefusing.elim

/-- While no request is let in, no refusal asks for a shorter wait than an earlier one, whatever the
requests and readings in between. -/
theorem retryAfterSeconds_run {calls : List Call} (hnonneg : 0 ≤ c.rejectStreak)
    (hcap : c.limits.retryAfterSeconds ≤ maxRetryAfterSeconds)
    (hrefusing : Trace.Along step Refusing c calls) (hrun : Trace.exec step c calls = some d) :
    c.retryAfterSeconds ≤ d.retryAfterSeconds := by
  have hlater : Later c d := Trace.exec_invariant (I := Later c) later_step
    ⟨rfl, hnonneg, le_rfl⟩ hrefusing hrun
  rw [← hlater.same]
  exact retryAfterSeconds_mono (s := c.rejectStreak) (base_le_cap_iff.mpr hcap) hlater.grown

/-- Once a request has been let in, the next refusal asks for the base again. -/
theorem retryAfterSeconds_admitted_refused (c : Controller) :
    c.admitted.refused.retryAfterSeconds = c.base :=
  if_pos (show int64 (0 + 1) ≤ 1 by decide)

end Controller

end Aquifer.Admission
