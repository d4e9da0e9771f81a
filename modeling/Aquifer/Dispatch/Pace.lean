import Mathlib.Data.Rat.Floor
import Aquifer.Dispatch.AccountQueue
import Aquifer.Dispatch.SharedPace

/-! The pace of one account queue: what its run loop makes of completions, of throttles computed
elsewhere and of its pool's capacity. -/
namespace Aquifer

/-- What a queue is started with. `capacity` is the pool's `TotalCapacity`, if a pool backs it. -/
structure PaceConfig where
  configuredRPS : ℚ
  slowStart : Bool := false
  capacity : Option ℚ := none
deriving DecidableEq, Repr

/-- A `jobDoneMsg` as the pace update reads it: an attempt's own, with whether the attempt failed
and the rate the response advertised, or the one `Throttle` sends. -/
inductive Pace.Msg
  | completion (failed : Bool) (rps : Option ℚ)
  | throttle (rps : ℚ)
deriving DecidableEq, Repr

namespace Pace.Msg

def failed : Msg → Bool
  | completion failed _ => failed
  | throttle _ => false

def rps : Msg → Option ℚ
  | completion _ rps => rps
  | throttle rps => some rps

def isCompletion : Msg → Bool
  | completion _ _ => true
  | throttle _ => false

/-- A completion that did not fail. -/
def succeeded : Msg → Bool
  | completion failed _ => !failed
  | throttle _ => false

end Pace.Msg

/-- Where the run loop stands: before its resample, in its sending loop, or in its select. -/
inductive Pace.Phase
  | top
  | sending
  | waiting
deriving DecidableEq, Repr

/-- How far a `checkAndThrottle` that concerns this queue has come: it has the factor by which the
rates are to be scaled, or the rate it is about to send. -/
inductive Pace.Check
  | idle
  | scaled (scale : ℚ)
  | computed (rate : ℚ)
deriving DecidableEq, Repr

/-- The loop's rate, the published one in hundredths, the attempts under way, the done channel and
the throttle being computed; and of the past, the rate of the last dispatch and whether a
completion that did not fail was processed since. -/
structure Pace where
  rps : ℚ
  currentRPS : Int
  phase : Pace.Phase := .top
  running : Nat := 0
  done : List Pace.Msg := []
  check : Pace.Check := .idle
  last : Option ℚ := none
  earned : Bool := false
deriving DecidableEq, Repr

inductive Pace.Event
  | pass
  | dispatch
  | wait
  | wake
  | process
  | finish (failed : Bool) (rps : Option ℚ)
  | sum (others : ℚ)
  | scale
  | throttle
  | restart (panicked : Bool)
deriving DecidableEq, Repr

namespace PaceConfig

variable (c : PaceConfig)

/-- The pace at the configured ceiling, never below `MinRPS`. -/
def bounded (r : ℚ) : ℚ := max (min r c.configuredRPS) minRPS

/-- A pool that backs the queue and has capacity. -/
def pooled : Option ℚ := c.capacity.filter (0 < ·)

/-- A ceiling of at least `MinRPS`, and no slow start of a queue that a pool backs. -/
def plain : Bool := minRPS ≤ c.configuredRPS && !(c.slowStart && c.pooled.isSome)

/-- What `run` starts at. -/
def startRPS : ℚ := if c.slowStart then minRPS else c.configuredRPS

def budgetCeiling : ℚ := c.capacity.getD c.configuredRPS

variable {c} {r x : ℚ}

theorem startRPS_bounds (hc : minRPS ≤ c.configuredRPS) :
    minRPS ≤ c.startRPS ∧ c.startRPS ≤ c.configuredRPS := by
  unfold startRPS
  split
  · exact ⟨le_rfl, hc⟩
  · exact ⟨hc, le_rfl⟩

theorem plain_iff : c.plain = true ↔
    minRPS ≤ c.configuredRPS ∧ (c.slowStart = false ∨ c.pooled = none) := by
  simp [plain]

theorem minRPS_le_bounded : minRPS ≤ c.bounded r := le_max_right _ _

theorem bounded_le_configured (hc : minRPS ≤ c.configuredRPS) : c.bounded r ≤ c.configuredRPS :=
  max_le (min_le_right _ _) hc

theorem bounded_le (hx : minRPS ≤ x) (hr : r ≤ x) : c.bounded r ≤ x :=
  max_le ((min_le_left _ _).trans hr) hx

/-- A pace above one that is at least `MinRPS` comes from the rate asked for. -/
theorem bounded_le_of_lt (hx : minRPS ≤ x) (h : x < c.bounded r) : c.bounded r ≤ r := by
  rcases le_total (min r c.configuredRPS) minRPS with hle | hle
  · have : c.bounded r = minRPS := max_eq_right hle
    linarith
  · have : c.bounded r = min r c.configuredRPS := max_eq_left hle
    rw [this]
    exact min_le_left _ _

/-- A queue with a pool starts at its ceiling, which no resample passes. -/
theorem bounded_le_startRPS (hc : c.plain = true) {cap : ℚ} (hcap : c.pooled = some cap) :
    c.bounded cap ≤ c.startRPS := by
  obtain ⟨hmin, hslow⟩ := plain_iff.mp hc
  have hfast : c.slowStart = false := hslow.resolve_right (by simp [hcap])
  simpa [startRPS, hfast] using bounded_le_configured hmin

theorem le_bounded (hc : x ≤ c.configuredRPS) (hr : x ≤ r) : x ≤ c.bounded r :=
  (le_min hr hc).trans (le_max_left _ _)

end PaceConfig

namespace Pace

variable {c : PaceConfig} {s t : Pace} {e : Event} {es : List Event} {m : Msg} {rps : ℚ}

def published (rps : ℚ) : Int := ⌊rps * 100⌋

def start (c : PaceConfig) : Pace := { rps := c.startRPS, currentRPS := published c.startRPS }

/-- `supervise` calls `run` again. The attempts under way, the channel and the throttle being
computed are the old ones. -/
def restarted (c : PaceConfig) (s : Pace) : Pace :=
  { s with rps := c.startRPS, currentRPS := published c.startRPS, phase := .top }

def RPS (s : Pace) : ℚ := s.currentRPS / 100

/-- The resample at the top of the loop, which publishes nothing. -/
def resample (c : PaceConfig) (rps : ℚ) : ℚ :=
  match c.pooled with
  | some cap => c.bounded cap
  | none => rps

/-- The pace after a message. -/
def update (c : PaceConfig) (rps : ℚ) (m : Msg) : ℚ :=
  if m.failed then
    max (m.rps.elim (rps / 2) (min (rps / 2))) minRPS
  else
    match m.rps with
    | some r => c.bounded r
    | none => if rps < c.configuredRPS then min (rps * (105 / 100)) c.configuredRPS else rps

def process (c : PaceConfig) (s : Pace) (m : Msg) (rest : List Msg) : Pace :=
  let rps := update c s.rps m
  { s with
    rps
    currentRPS := published rps
    phase := .top
    done := rest
    earned := s.earned || m.succeeded }

def step (c : PaceConfig) (s : Pace) : Event → Option Pace
  | .pass =>
    if s.phase = .top then some { s with rps := resample c s.rps, phase := .sending } else none
  | .dispatch =>
    if s.phase = .sending then
      some { s with running := s.running + 1, last := some s.rps, earned := false }
    else none
  | .wait => if s.phase = .sending then some { s with phase := .waiting } else none
  -- a new job, a timer or a retry
  | .wake => if s.phase = .waiting then some { s with phase := .top } else none
  | .process =>
    match s.phase, s.done with
    | .waiting, m :: rest => some (process c s m rest)
    | _, _ => none
  | .finish failed rps =>
    if 0 < s.running ∧ s.done.length < doneCap then
      some { s with
        running := s.running - 1
        done := s.done ++ [.completion failed rps] }
    else none
  -- the worker sums the published rates of this queue and of the others
  | .sum others =>
    if s.check = .idle ∧ 0 ≤ others ∧ 0 < c.budgetCeiling ∧ c.budgetCeiling < s.RPS + others then
      some { s with check := .scaled (c.budgetCeiling / (s.RPS + others)) }
    else none
  -- and reads this queue's rate again to scale it
  | .scale =>
    match s.check with
    | .scaled k => some { s with check := .computed (max (s.RPS * k) minRPS) }
    | _ => none
  -- a throttle is dropped when the channel is full
  | .throttle =>
    match s.check with
    | .computed r =>
      some { s with
        check := .idle
        done := if s.done.length < doneCap then s.done ++ [.throttle r] else s.done }
    | _ => none
  -- after a panic anywhere, or an idle timeout that `onIdle` finds new work at: then no attempt is
  -- counted in flight
  | .restart panicked =>
    if panicked ∨ s.phase = .waiting ∧ s.running = 0 ∧ s.done.all (!·.isCompletion) then
      some (restarted c s)
    else none

def Msg.throttled : Msg → Option ℚ
  | .completion _ _ => none
  | .throttle r => some r

def Check.rate : Check → Option ℚ
  | .computed r => some r
  | _ => none

/-- The throttles that were computed and are still to be processed. -/
def outstanding (done : List Msg) (check : Check) : List ℚ :=
  done.filterMap Msg.throttled ++ check.rate.toList

/-- The message asks for a pace below `rps`. -/
def Msg.lowers (m : Msg) (rps : ℚ) : Bool := m.failed || m.rps.any (· < rps)

/-- With no pool, the pace is lowered only while no other throttle is outstanding; with a pool,
only completions are processed that did not fail and advertised no less than the pool's rate. The
loop is started again only at a pace that is not below the one it starts at, and where that lowers
the pace, while no throttle is outstanding. -/
def steady (c : PaceConfig) (s : Pace) : Event → Bool
  | .process =>
    match s.done, c.pooled with
    | [], _ => true
    | m :: _, some cap => m.succeeded && m.rps.all (min cap c.configuredRPS ≤ ·)
    | m :: rest, none => !m.lowers s.rps || (outstanding rest s.check).isEmpty
  | .restart _ =>
    c.startRPS = s.rps || c.startRPS < s.rps && (outstanding s.done s.check).isEmpty
  | _ => true

theorem RPS_published : ((published rps : Int) : ℚ) / 100 ≤ rps := by
  have := Int.floor_le (rps * 100)
  rw [published]
  linarith

theorem minRPS_pos : 0 < minRPS := by norm_num [minRPS]

theorem published_nonneg (h : minRPS ≤ rps) : 0 ≤ published rps := by
  have := minRPS_pos
  exact Int.floor_nonneg.mpr (by linarith)

/-! ### What a message does to the pace -/

theorem update_failed_le (hmin : minRPS ≤ rps) (hm : m.failed = true) :
    update c rps m ≤ rps := by
  have := minRPS_pos
  have hhalf : rps / 2 ≤ rps := by linarith
  rw [update, if_pos hm]
  refine max_le ?_ hmin
  cases m.rps with
  | none => exact hhalf
  | some r => exact (min_le_left _ _).trans hhalf

theorem minRPS_le_update (hmin : minRPS ≤ rps) (hc : rps ≤ c.configuredRPS) :
    minRPS ≤ update c rps m := by
  have := minRPS_pos
  unfold update
  split
  · exact le_max_right _ _
  · split
    · exact PaceConfig.minRPS_le_bounded
    · split
      · exact le_min (by linarith) (hmin.trans hc)
      · exact hmin

theorem update_le_configured (hmin : minRPS ≤ rps) (hc : rps ≤ c.configuredRPS) :
    update c rps m ≤ c.configuredRPS := by
  by_cases hm : m.failed = true
  · exact (update_failed_le hmin hm).trans hc
  · rw [update, if_neg hm]
    split
    · exact PaceConfig.bounded_le_configured (hmin.trans hc)
    · split
      · exact min_le_right _ _
      · exact hc

theorem le_update (hmin : minRPS ≤ rps) (hc : rps ≤ c.configuredRPS) (hm : m.lowers rps = false) :
    rps ≤ update c rps m := by
  have := minRPS_pos
  simp only [Msg.lowers, Bool.or_eq_false_iff] at hm
  rw [update, if_neg (by simp [hm.1])]
  cases hr : m.rps with
  | none =>
    dsimp only
    split
    · exact le_min (by linarith) hc
    · exact le_rfl
  | some r =>
    have hle : rps ≤ r := by simpa [hr] using hm.2
    exact PaceConfig.le_bounded hc hle

/-- How a completion that did not fail can raise the pace. -/
theorem update_succeeded (hmin : minRPS ≤ rps) (hm : m.failed = false)
    (hrise : rps < update c rps m) :
    (m.rps = none ∧ update c rps m ≤ rps * (105 / 100)) ∨ ∃ r, m.rps = some r ∧
    update c rps m ≤ r := by
  rw [update, if_neg (by simp [hm])] at hrise ⊢
  cases hr : m.rps with
  | none =>
    left
    rw [hr] at hrise
    dsimp only at hrise ⊢
    split
    · exact ⟨rfl, min_le_left _ _⟩
    · rename_i hfull
      rw [if_neg hfull] at hrise
      exact absurd hrise (lt_irrefl _)
  | some r =>
    rw [hr] at hrise
    exact .inr ⟨r, rfl, PaceConfig.bounded_le_of_lt hmin hrise⟩

theorem update_throttle_le {r : ℚ} (hmin : minRPS ≤ rps) (hr : r ≤ rps) :
    update c rps (.throttle r) ≤ rps := by
  rw [update, if_neg (by simp [Msg.failed])]
  exact PaceConfig.bounded_le hmin hr

/-! ### Runs -/

/-- The pace is within its bounds and at least what a resample would give; what is published and
what throttles ask for is no more than it; and it exceeds the last dispatch only if earned. -/
structure Sound (c : PaceConfig) (s : Pace) : Prop where
  floor : minRPS ≤ s.rps
  ceiling : s.rps ≤ c.configuredRPS
  resampled : ∀ cap ∈ c.pooled, c.bounded cap ≤ s.rps
  nonneg : 0 ≤ s.currentRPS
  published_le : c.pooled = none → s.RPS ≤ s.rps
  scales : ∀ k, s.check = .scaled k → k ≤ 1
  throttles : c.pooled = none → ∀ r ∈ outstanding s.done s.check, r ≤ s.rps
  since : ∀ l ∈ s.last, s.earned = true ∨ s.rps ≤ l

theorem sound_start (hc : c.plain = true) : Sound c (start c) := by
  obtain ⟨hfloor, hceil⟩ := PaceConfig.startRPS_bounds (PaceConfig.plain_iff.mp hc).1
  refine ⟨hfloor, hceil, fun cap hcap => PaceConfig.bounded_le_startRPS hc hcap,
    published_nonneg hfloor, fun _ => RPS_published, ?_, ?_, ?_⟩
  · intro k hk
    cases hk
  · intro _ r hr
    cases hr
  · intro l hl
    cases hl

/-- What the restart of a steady run does to the pace. -/
theorem startRPS_of_steady {panicked : Bool} (hok : steady c s (.restart panicked) = true) :
    c.startRPS ≤ s.rps ∧ (c.startRPS = s.rps ∨ outstanding s.done s.check = []) := by
  simp only [steady, Bool.or_eq_true, decide_eq_true_iff, Bool.and_eq_true,
    List.isEmpty_iff] at hok
  rcases hok with heq | ⟨hlt, hnone⟩
  · exact ⟨heq.le, .inl heq⟩
  · exact ⟨hlt.le, .inr hnone⟩

theorem sound_restarted (hc : c.plain = true) (h : Sound c s) {panicked : Bool}
    (hok : steady c s (.restart panicked) = true) : Sound c (restarted c s) := by
  obtain ⟨hfloor, hceil⟩ := PaceConfig.startRPS_bounds (PaceConfig.plain_iff.mp hc).1
  obtain ⟨hle, houts⟩ := startRPS_of_steady hok
  refine ⟨hfloor, hceil, fun cap hcap => PaceConfig.bounded_le_startRPS hc hcap,
    published_nonneg hfloor, fun _ => RPS_published, h.scales, fun hp r hr => ?_, fun l hl => ?_⟩
  · rcases houts with heq | hnone
    · exact (h.throttles hp r hr).trans heq.ge
    · rw [show outstanding (restarted c s).done (restarted c s).check = [] from hnone] at hr
      cases hr
  · exact (h.since l hl).imp_right hle.trans

theorem mem_outstanding_cons {r : ℚ} {rest : List Msg} {check : Check}
    (hr : r ∈ outstanding rest check) : r ∈ outstanding (m :: rest) check := by
  cases m with
  | completion => exact hr
  | throttle x => exact List.mem_cons_of_mem x hr

variable {rest : List Msg}

/-- Only a completion that did not fail raises the pace. -/
theorem update_le_of_steady (h : Sound c s) (hd : s.done = m :: rest)
    (hok : steady c s .process = true) (hm : m.succeeded = false) : update c s.rps m ≤ s.rps := by
  cases m with
  | completion failed r =>
    refine update_failed_le h.floor ?_
    simpa [Msg.succeeded, Msg.failed] using hm
  | throttle r =>
    cases hp : c.pooled with
    | some cap => simp [steady, hd, hp, Msg.succeeded] at hok
    | none =>
      refine update_throttle_le h.floor (h.throttles hp r ?_)
      simp [outstanding, hd, Msg.throttled]

theorem sound_process (h : Sound c s) (hd : s.done = m :: rest)
    (hok : steady c s .process = true) : Sound c (process c s m rest) := by
  have hfloor : minRPS ≤ update c s.rps m := minRPS_le_update h.floor h.ceiling
  refine ⟨hfloor, update_le_configured h.floor h.ceiling, ?_, published_nonneg hfloor,
    fun _ => RPS_published, h.scales, ?_, ?_⟩
  · intro cap hcap
    have hcap' : c.pooled = some cap := hcap
    simp only [steady, hd, hcap', Bool.and_eq_true] at hok
    have hnf : m.failed = false := by
      cases m <;> simp_all [Msg.succeeded, Msg.failed]
    cases hr : m.rps with
    | none =>
      exact (h.resampled cap hcap).trans
        (le_update h.floor h.ceiling (by simp [Msg.lowers, hnf, hr]))
    | some r =>
      have hle : min cap c.configuredRPS ≤ r := by simpa [hr] using hok.2
      have hup : (process c s m rest).rps = c.bounded r := by simp [process, update, hnf, hr]
      rw [hup]
      exact max_le_max (le_min hle (min_le_right _ _)) le_rfl
  · intro hp r hr
    by_cases hl : m.lowers s.rps = true
    · have hnone : outstanding rest s.check = [] := by simpa [steady, hd, hp, hl] using hok
      rw [show outstanding (process c s m rest).done (process c s m rest).check = [] from hnone]
        at hr
      cases hr
    · have hmem : r ∈ outstanding s.done s.check := hd ▸ mem_outstanding_cons hr
      exact (h.throttles hp r hmem).trans (le_update h.floor h.ceiling (by simpa using hl))
  · intro l hl
    by_cases hm : m.succeeded = true
    · exact .inl (by simp [process, hm])
    · have hle := update_le_of_steady h hd hok (by simpa using hm)
      rcases h.since l hl with he | hle'
      · exact .inl (by simp [process, he])
      · exact .inr (hle.trans hle')

theorem sound_pass (h : Sound c s) :
    Sound c { s with rps := resample c s.rps, phase := .sending } := by
  cases hp : c.pooled with
  | none =>
    have hsame : resample c s.rps = s.rps := by simp [resample, hp]
    rw [hsame]
    exact { h with }
  | some cap =>
    have hcap : resample c s.rps = c.bounded cap := by simp [resample, hp]
    have hle : c.bounded cap ≤ s.rps := h.resampled cap hp
    rw [hcap]
    refine ⟨PaceConfig.minRPS_le_bounded, hle.trans h.ceiling, ?_, h.nonneg, ?_, h.scales, ?_, ?_⟩
    · intro x hx
      rw [show x = cap by simpa [hp] using hx.symm]
    · intro hnone
      simp [hp] at hnone
    · intro hnone
      simp [hp] at hnone
    · intro l hl
      exact (h.since l hl).imp_right hle.trans

theorem sound_scale {k : ℚ} (h : Sound c s) (hk : s.check = .scaled k) :
    Sound c { s with check := .computed (max (s.RPS * k) minRPS) } := by
  refine { h with scales := ?_, throttles := ?_ }
  · intro x hx
    cases hx
  · intro hp r hr
    rcases List.mem_append.mp hr with hr | hr
    · exact h.throttles hp r (List.mem_append_left _ hr)
    · have hr' : r = max (s.RPS * k) minRPS := by simpa [Check.rate] using hr
      have hpos : 0 ≤ s.RPS := div_nonneg (by exact_mod_cast h.nonneg) (by norm_num)
      rw [hr']
      exact max_le ((mul_le_of_le_one_right hpos (h.scales k hk)).trans (h.published_le hp)) h.floor

theorem sound_throttle {r : ℚ} (h : Sound c s) (hr : s.check = .computed r) :
    Sound c { s with
      check := .idle
      done := if s.done.length < doneCap then s.done ++ [.throttle r] else s.done } := by
  refine { h with scales := ?_, throttles := ?_ }
  · intro k hk
    cases hk
  · intro hp x hx
    refine h.throttles hp x ?_
    simp only [outstanding, hr, Check.rate, Option.toList] at hx ⊢
    split at hx
    · simpa [Msg.throttled, List.filterMap_append] using hx
    · exact List.mem_append_left _ (by simpa using hx)

theorem sound_step (hc : c.plain = true) (h : Sound c s) (hok : steady c s e = true)
    (hstep : step c s e = some t) :
    Sound c t := by
  cases e with
  | pass =>
    simp only [step, Option.ite_none_right_eq_some, Option.some.injEq] at hstep
    obtain ⟨-, rfl⟩ := hstep
    exact sound_pass h
  | dispatch =>
    simp only [step, Option.ite_none_right_eq_some, Option.some.injEq] at hstep
    obtain ⟨-, rfl⟩ := hstep
    exact { h with since := fun l hl => .inr (Option.some.inj hl).le }
  | wait | wake =>
    simp only [step, Option.ite_none_right_eq_some, Option.some.injEq] at hstep
    obtain ⟨-, rfl⟩ := hstep
    exact { h with }
  | process =>
    simp only [step] at hstep
    split at hstep <;> cases hstep
    rename_i hd
    exact sound_process h hd hok
  | finish failed rps =>
    simp only [step, Option.ite_none_right_eq_some, Option.some.injEq] at hstep
    obtain ⟨-, rfl⟩ := hstep
    refine { h with throttles := fun hp r hr => ?_ }
    exact h.throttles hp r (by simpa [outstanding, List.filterMap_append, Msg.throttled] using hr)
  | sum others =>
    simp only [step, Option.ite_none_right_eq_some, Option.some.injEq] at hstep
    obtain ⟨⟨hidle, -, hpos, hover⟩, rfl⟩ := hstep
    refine { h with scales := ?_, throttles := ?_ }
    · intro k hk
      cases hk
      exact (div_le_one (hpos.trans hover)).mpr hover.le
    · intro hp r hr
      exact h.throttles hp r (by simpa [outstanding, hidle, Check.rate] using hr)
  | scale =>
    simp only [step] at hstep
    split at hstep <;> cases hstep
    rename_i hk
    exact sound_scale h hk
  | throttle =>
    simp only [step] at hstep
    split at hstep <;> cases hstep
    rename_i hr
    exact sound_throttle h hr
  | restart panicked =>
    simp only [step, Option.ite_none_right_eq_some, Option.some.injEq] at hstep
    obtain ⟨-, rfl⟩ := hstep
    exact sound_restarted hc h hok

/-- The step processes a completion that did not fail, and raises the pace by at most 5% or to at
most the rate the response advertised. -/
def Earned (s : Pace) (e : Event) (t : Pace) : Prop :=
  e = .process ∧ ∃ m rest, s.done = m :: rest ∧ m.succeeded = true ∧
    (m.rps = none ∧ t.rps ≤ s.rps * (105 / 100) ∨ ∃ r, m.rps = some r ∧ t.rps ≤ r)

theorem earned_of_rise (h : Sound c s) (hok : steady c s e = true) (hstep : step c s e = some t)
    (hrise : s.rps < t.rps) : Earned s e t := by
  cases e with
  | pass =>
    simp only [step, Option.ite_none_right_eq_some, Option.some.injEq] at hstep
    obtain ⟨-, rfl⟩ := hstep
    refine absurd hrise (not_lt.mpr ?_)
    cases hp : c.pooled with
    | none => simp [resample, hp]
    | some cap => simpa [resample, hp] using h.resampled cap hp
  | process =>
    simp only [step] at hstep
    split at hstep <;> cases hstep
    rename_i m rest hphase hd
    have hm : m.succeeded = true := by
      by_contra hm
      exact absurd hrise (not_lt.mpr (update_le_of_steady h hd hok (by simpa using hm)))
    have hnf : m.failed = false := by
      cases m <;> simp_all [Msg.succeeded, Msg.failed]
    exact ⟨rfl, m, rest, hd, hm, update_succeeded h.floor hnf hrise⟩
  | scale | throttle =>
    simp only [step] at hstep
    split at hstep <;> cases hstep
    exact absurd hrise (lt_irrefl _)
  | dispatch | wait | wake | finish | sum =>
    simp only [step, Option.ite_none_right_eq_some, Option.some.injEq] at hstep
    obtain ⟨-, rfl⟩ := hstep
    exact absurd hrise (lt_irrefl _)
  | restart panicked =>
    simp only [step, Option.ite_none_right_eq_some, Option.some.injEq] at hstep
    obtain ⟨-, rfl⟩ := hstep
    exact absurd hrise (startRPS_of_steady hok).1.not_gt

/-- In every run in which the pace is lowered only while no throttle is outstanding, and never for
a queue with a pool, and in which the loop is not started again below its starting pace, a step that
raises the pace has earned it, and so has a dispatch at a higher rate than the one before. -/
theorem pace_rises_only_when_earned (hc : c.plain = true) {es : List Event}
    (hrun : Trace.exec (step c) (start c) es = some s)
    (hsteady : Trace.Along (step c) (fun s e => steady c s e = true) (start c) es) :
    (∀ e t, steady c s e = true → step c s e = some t → s.rps < t.rps → Earned s e t) ∧
    ∀ l, s.last = some l → l < s.rps → s.earned = true := by
  have hs : Sound c s :=
    Trace.exec_invariant (fun h hok hstep => sound_step hc h hok hstep)
      (sound_start hc) hsteady hrun
  refine ⟨fun e t hok hstep hrise => earned_of_rise hs hok hstep hrise, ?_⟩
  intro l hl hlt
  rcases hs.since l hl with he | hle
  · exact he
  · exact absurd hlt (not_lt.mpr hle)

/-- After a failure has halved the pace, the next success raises it by 5%. -/
theorem success_after_failure_raises :
    ∃ s, Trace.exec (step { configuredRPS := 10 }) (start { configuredRPS := 10 })
        [.pass, .dispatch, .dispatch, .wait, .finish true none, .process, .pass, .dispatch, .wait,
          .finish false none] = some s ∧ s.rps = 5 ∧
      ∃ t, step { configuredRPS := 10 } s .process = some t ∧ t.rps = 21 / 4 ∧
        Earned s .process t := by
  have hrun : ∃ s, Trace.exec (step { configuredRPS := 10 }) (start { configuredRPS := 10 })
        [.pass, .dispatch, .dispatch, .wait, .finish true none, .process, .pass, .dispatch, .wait,
          .finish false none] = some s ∧ s.rps = 5 ∧
      steady { configuredRPS := 10 } s .process = true ∧
      ∃ t, step { configuredRPS := 10 } s .process = some t ∧ t.rps = 21 / 4 := by decide +kernel
  obtain ⟨s, hexec, hs, hok, t, hstep, ht⟩ := hrun
  refine ⟨s, hexec, hs, t, hstep, ht, ?_⟩
  refine (pace_rises_only_when_earned (by decide +kernel) hexec (by decide +kernel)).1
    .process t hok hstep ?_
  rw [hs, ht]
  norm_num

/-- A throttle computed at 10 a second is processed after two failures have brought the pace down to
2.5: it doubles it. A pool's resample undoes the halving of the failure before it. And a loop that
is started again after an idle timeout dispatches at 10, where only failures have been processed
since the dispatch at 5. -/
theorem throttle_and_resample_raise :
    (∃ s, Trace.exec (step { configuredRPS := 10 }) (start { configuredRPS := 10 })
        [.pass, .dispatch, .dispatch, .wait, .sum 10, .scale, .finish true none, .finish true none,
          .process, .pass, .wait, .process, .pass, .dispatch, .wait, .throttle, .process, .pass] =
          some s ∧
      s.last = some (5 / 2) ∧ s.rps = 5 ∧ s.earned = false) ∧
    (∃ s, Trace.exec (step { configuredRPS := 10, capacity := some 10 })
        (start { configuredRPS := 10, capacity := some 10 })
        [.pass, .dispatch, .wait, .finish true none, .process] = some s ∧ s.rps = 5 ∧
      ∃ t, step { configuredRPS := 10, capacity := some 10 } s .pass = some t ∧ t.rps = 10) ∧
    ∃ s, Trace.exec (step { configuredRPS := 10 }) (start { configuredRPS := 10 })
        [.pass, .dispatch, .wait, .finish true none, .process, .pass, .dispatch, .wait,
          .finish true none, .process, .pass, .wait, .restart false, .pass] = some s ∧
      s.last = some 5 ∧ s.rps = 10 ∧ s.earned = false := by
  decide +kernel

end Pace

end Aquifer
