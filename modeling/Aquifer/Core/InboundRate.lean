import Mathlib.Algebra.Order.Field.Rat
import Mathlib.Data.List.Sort
import Mathlib.Tactic.Linarith
import Aquifer.Lib.Trace

/-! The controller of the rate that callers are told to send at. -/
namespace Aquifer

/-- What a tick does to the rate. A cut that begins a congestion episode learns the threshold. -/
inductive RateAdjustment
  | start
  | cut (learns : Bool) (reason : String)
  | waiting
  | backlogGrowing
  | overshoot
  | raise
  | hold
deriving DecidableEq, Repr

def RateAdjustment.text : RateAdjustment → String
  | start => "start"
  | cut _ reason => reason
  | waiting => "hold: waiting for last cut"
  | backlogGrowing => "hold: backlog growing"
  | overshoot => "hold: callers over advertised rate"
  | raise => "raise"
  | hold => "hold"

/-- `InboundRateController`. Durations are in nanoseconds; `syncLagLimit` is none while there is no
source for the sync lag. Of the snapshot it keeps the counters and the last adjustment. -/
structure InboundRateController where
  benchmark : ℚ
  floor : ℚ := 1
  ceiling : ℚ
  rate : ℚ
  threshold : ℚ
  cooldown : Nat := 0
  congested : Bool := false
  episode : Nat := 0
  hasBacklog : Bool := false
  syncLagLimit : Option Int := none
  prevBacklog : Int := -1
  backlogGrows : Nat := 0
  inserts : Nat := 0
  latencies : List Int := []
  baseline : Int := 0
  cuts : Nat := 0
  raises : Nat := 0
  lastAdjustment : RateAdjustment := .start
deriving DecidableEq, Repr

inductive InboundRateController.Event
  | setBacklogSource
  | setSyncLagSource (flushInterval : Int)
  | observe (latency : Int) (inserted : Bool)
  | tick (backlog syncLag : Int)
deriving DecidableEq

def newInboundRateController (benchmark startPercent : ℚ) : InboundRateController :=
  let benchmark := if benchmark ≤ 0 then 400 else benchmark
  { benchmark, ceiling := benchmark * 10, rate := max (benchmark * startPercent / 100) 1,
    threshold := benchmark }

namespace InboundRateController

variable {c d u v : InboundRateController} {e : Event} {es : List Event} {backlog syncLag : Int}

def minSamples : Nat := 20

def latencySlack : Int := 2000000

def maxSamples : Nat := 8192

def cutFactor : ℚ := 7 / 10

def fastGrowth : ℚ := 3 / 2

def carefulGrowth : ℚ := 21 / 20

def cutCooldownTicks : Nat := 3

def episodeRecutTicks : Nat := 10

def backlogGrowthTicks : Nat := 3

def overshootFactor : ℚ := 3 / 2

def usedFraction : ℚ := 4 / 5

def defaultSyncLagLimit : Int := 500000000

/-- `percentile` at 0.95: the sorted sample at the rounded rank. -/
def percentile95 (samples : List Int) : Int :=
  (samples.insertionSort (· ≤ ·)).getD
    (min (((samples.length - 1) * 19 + 10) / 20) (samples.length - 1)) 0

def enough (c : InboundRateController) : Bool := decide (minSamples ≤ c.latencies.length)

/-- The baseline a tick goes on with. It drifts up slowly, rounded towards zero. -/
def nextBaseline (c : InboundRateController) : Int :=
  let p95 := percentile95 c.latencies
  if c.enough then
    if c.baseline = 0 ∨ p95 < c.baseline then p95
    else (c.baseline * 99 + p95).tdiv 100
  else c.baseline

def latencyHealthy (c : InboundRateController) : Bool :=
  !c.enough || decide (percentile95 c.latencies ≤ (c.nextBaseline * 3).tdiv 2 + latencySlack)

/-- The backlog read, or -1 while there is no source. -/
def readBacklog (c : InboundRateController) (backlog : Int) : Int :=
  if c.hasBacklog then backlog else -1

def backlogGrowing (c : InboundRateController) (backlog : Int) : Bool :=
  decide (0 ≤ c.prevBacklog ∧ 0 ≤ c.readBacklog backlog ∧
    max 10 (1 / 10 * (c.inserts : ℚ)) < c.readBacklog backlog - c.prevBacklog)

def nextGrows (c : InboundRateController) (backlog : Int) : Nat :=
  if c.backlogGrowing backlog then c.backlogGrows + 1 else 0

def diskBehind (c : InboundRateController) (syncLag : Int) : Bool :=
  c.syncLagLimit.any fun limit => decide (limit < syncLag)

def healthy (c : InboundRateController) (backlog syncLag : Int) : Bool :=
  c.latencyHealthy && !decide (backlogGrowthTicks ≤ c.nextGrows backlog) && !c.diskBehind syncLag

def cutReason (c : InboundRateController) (syncLag : Int) : String :=
  if !c.latencyHealthy then "cut: insert latency"
  else if c.diskBehind syncLag then "cut: disk behind"
  else "cut: backlog growing"

/-- The state in which a tick decides: the samples are consumed, a healthy tick has ended the
episode, the cooldown has counted down and an episode that goes on has counted up. -/
def beginTick (c : InboundRateController) (backlog syncLag : Int) : InboundRateController :=
  let congested := c.congested && !c.healthy backlog syncLag
  { c with
    inserts := 0
    latencies := []
    baseline := c.nextBaseline
    backlogGrows := c.nextGrows backlog
    prevBacklog := c.readBacklog backlog
    congested
    cooldown := c.cooldown - 1
    episode := if congested then c.episode + 1 else c.episode }

/-- The case of the tick's `switch`. -/
def adjustment (c : InboundRateController) (backlog syncLag : Int) : RateAdjustment :=
  let begun := c.beginTick backlog syncLag
  if c.healthy backlog syncLag = false ∧
      (begun.congested = false ∨ episodeRecutTicks ≤ begun.episode) ∧ begun.cooldown = 0 then
    .cut (!begun.congested) (c.cutReason syncLag)
  else if c.healthy backlog syncLag = false then .waiting
  else if c.backlogGrowing backlog then .backlogGrowing
  else if c.rate * overshootFactor < c.inserts then .overshoot
  else if c.rate * usedFraction ≤ c.inserts then .raise
  else .hold

def tick (c : InboundRateController) (backlog syncLag : Int) : InboundRateController :=
  let begun :=
    { c.beginTick backlog syncLag with lastAdjustment := c.adjustment backlog syncLag }
  match c.adjustment backlog syncLag with
  | .cut learns _ =>
    { begun with
      threshold := if learns then max (c.rate * (9 / 10)) c.floor else c.threshold
      congested := true
      episode := 0
      rate := max (c.rate * cutFactor) c.floor
      cooldown := cutCooldownTicks
      cuts := c.cuts + 1 }
  | .raise =>
    { begun with
      congested := false
      rate := min (c.rate * if c.threshold ≤ c.rate then carefulGrowth else fastGrowth) c.ceiling
      raises := c.raises + 1 }
  | _ => begun

def observe (c : InboundRateController) (latency : Int) (inserted : Bool) :
    InboundRateController :=
  { c with
    inserts := if inserted then c.inserts + 1 else c.inserts
    latencies :=
      if c.latencies.length < maxSamples then c.latencies ++ [latency] else c.latencies }

def step (c : InboundRateController) : Event → Option InboundRateController
  | .setBacklogSource => some { c with hasBacklog := true }
  | .setSyncLagSource flushInterval =>
    some { c with syncLagLimit := some (max defaultSyncLagLimit (2 * flushInterval)) }
  | .observe latency inserted => some (c.observe latency inserted)
  | .tick backlog syncLag => some (c.tick backlog syncLag)

/-- A tick that cuts, and one that cuts and learns the threshold. -/
def Cuts (c : InboundRateController) (backlog syncLag : Int) : Prop :=
  ∃ learns reason, c.adjustment backlog syncLag = .cut learns reason

def Learns (c : InboundRateController) (backlog syncLag : Int) : Prop :=
  ∃ reason, c.adjustment backlog syncLag = .cut true reason

/-- The tick's signals are unhealthy, if the event is one. -/
def Unhealthy (c : InboundRateController) : Event → Prop
  | .tick backlog syncLag => c.healthy backlog syncLag = false
  | _ => True

instance : Decidable (Unhealthy c e) := by
  unfold Unhealthy
  split <;> infer_instance

def isTick : Event → Bool
  | .tick _ _ => true
  | _ => false

def ticks (es : List Event) : Nat := es.countP isTick

/-- A tick cuts on unhealthy signals only, when the cooldown is over and no episode is going on or
the episode has lasted. -/
theorem adjustment_cut {learns : Bool} {reason : String}
    (h : c.adjustment backlog syncLag = .cut learns reason) :
    c.healthy backlog syncLag = false ∧ c.cooldown ≤ 1 ∧
      (c.congested = true → learns = false ∧ episodeRecutTicks ≤ c.episode + 1) := by
  simp only [adjustment] at h
  split at h
  · next hcut =>
    obtain ⟨hunhealthy, hagain, hcooldown⟩ := hcut
    injection h with hlearns
    have hcooldown : c.cooldown - 1 = 0 := hcooldown
    refine ⟨hunhealthy, by omega, fun hcongested => ?_⟩
    have hbegun : (c.beginTick backlog syncLag).congested = true := by
      simp [beginTick, hcongested, hunhealthy]
    have hepisode : (c.beginTick backlog syncLag).episode = c.episode + 1 := by
      simp [beginTick, hcongested, hunhealthy]
    refine ⟨by rw [← hlearns, hbegun]; rfl, ?_⟩
    rw [hbegun, hepisode] at hagain
    exact hagain.resolve_left Bool.noConfusion
  · split at h
    · cases h
    · split at h
      · cases h
      · split at h
        · cases h
        · split at h <;> cases h

theorem adjustment_raise (h : c.adjustment backlog syncLag = .raise) :
    c.healthy backlog syncLag = true := by
  simp only [adjustment] at h
  split at h
  · cases h
  · split at h
    · cases h
    · next hhealthy => exact Bool.not_eq_false _ ▸ hhealthy

/-- What a tick does to the fields that the later ticks decide by. -/
theorem tick_cases (c : InboundRateController) (backlog syncLag : Int) :
    (Cuts c backlog syncLag ∧ (c.tick backlog syncLag).rate = max (c.rate * cutFactor) c.floor ∧
      (c.tick backlog syncLag).congested = true ∧ (c.tick backlog syncLag).episode = 0 ∧
      (c.tick backlog syncLag).cooldown = cutCooldownTicks) ∨
    (c.healthy backlog syncLag = true ∧ (∃ growth, 1 ≤ growth ∧ growth ≤ fastGrowth ∧
      (c.tick backlog syncLag).rate = min (c.rate * growth) c.ceiling) ∧
      (c.tick backlog syncLag).cooldown = c.cooldown - 1) ∨
    ((c.tick backlog syncLag).rate = c.rate ∧
      (c.tick backlog syncLag).congested = (c.congested && !c.healthy backlog syncLag) ∧
      (c.tick backlog syncLag).episode =
        (if c.congested && !c.healthy backlog syncLag then c.episode + 1 else c.episode) ∧
      (c.tick backlog syncLag).cooldown = c.cooldown - 1) := by
  unfold tick
  cases hadjust : c.adjustment backlog syncLag with
  | cut learns reason => exact .inl ⟨⟨learns, reason, hadjust⟩, rfl, rfl, rfl, rfl⟩
  | raise =>
    refine .inr (.inl ⟨adjustment_raise hadjust, ⟨_, ?_, ?_, rfl⟩, rfl⟩)
    · split <;> norm_num [carefulGrowth, fastGrowth]
    · split <;> norm_num [carefulGrowth, fastGrowth]
  | start => exact .inr (.inr ⟨rfl, rfl, rfl, rfl⟩)
  | waiting => exact .inr (.inr ⟨rfl, rfl, rfl, rfl⟩)
  | backlogGrowing => exact .inr (.inr ⟨rfl, rfl, rfl, rfl⟩)
  | overshoot => exact .inr (.inr ⟨rfl, rfl, rfl, rfl⟩)
  | hold => exact .inr (.inr ⟨rfl, rfl, rfl, rfl⟩)

theorem cooldown_step (h : step c e = some d) :
    c.cooldown ≤ d.cooldown + if isTick e then 1 else 0 := by
  cases e with
  | tick backlog syncLag =>
    cases h
    rw [isTick, if_pos rfl]
    rcases tick_cases c backlog syncLag with ⟨⟨_, _, hcut⟩, -⟩ | ⟨-, -, heq⟩ | ⟨-, -, -, heq⟩
    · have := (adjustment_cut hcut).2.1
      omega
    · omega
    · omega
  | _ =>
    cases h
    exact Nat.le_add_right _ _

theorem cooldown_run (h : Trace.exec step c es = some d) : c.cooldown ≤ d.cooldown + ticks es := by
  induction es generalizing c with
  | nil =>
    cases h
    exact Nat.le_add_right _ _
  | cons e es ih =>
    obtain ⟨u, hu, hrest⟩ := Trace.exec_cons.mp h
    have hstep := cooldown_step hu
    have hrun := ih hrest
    simp only [ticks, List.countP_cons] at hrun ⊢
    omega

/-- An episode goes on through unhealthy ticks, and counts them at most. -/
theorem congested_step (hcongested : c.congested = true) (hunhealthy : Unhealthy c e)
    (h : step c e = some d) :
    d.congested = true ∧ d.episode ≤ c.episode + if isTick e then 1 else 0 := by
  cases e with
  | tick backlog syncLag =>
    cases h
    rw [isTick, if_pos rfl]
    have hunhealthy : c.healthy backlog syncLag = false := hunhealthy
    rcases tick_cases c backlog syncLag with
      ⟨-, -, hon, hzero, -⟩ | ⟨hhealthy, -⟩ | ⟨-, hon, heq, -⟩
    · exact ⟨hon, by omega⟩
    · rw [hunhealthy] at hhealthy
      cases hhealthy
    · simp only [hcongested, hunhealthy] at hon heq
      exact ⟨hon, heq.le⟩
  | _ =>
    cases h
    exact ⟨hcongested, Nat.le_add_right _ _⟩

theorem congested_run (hcongested : c.congested = true)
    (hunhealthy : Trace.Along step Unhealthy c es) (h : Trace.exec step c es = some d) :
    d.congested = true ∧ d.episode ≤ c.episode + ticks es := by
  induction es generalizing c with
  | nil =>
    cases h
    exact ⟨hcongested, Nat.le_add_right _ _⟩
  | cons e es ih =>
    obtain ⟨u, hu, hrest⟩ := Trace.exec_cons.mp h
    obtain ⟨hon, hstep⟩ := congested_step hcongested hunhealthy.1 hu
    obtain ⟨hon, hrun⟩ := ih hon (hunhealthy.2 u hu) hrest
    refine ⟨hon, ?_⟩
    simp only [ticks, List.countP_cons] at hrun ⊢
    omega

theorem tick_of_cut (h : Cuts c backlog syncLag) : (c.tick backlog syncLag).congested = true ∧
    (c.tick backlog syncLag).episode = 0 ∧
      (c.tick backlog syncLag).cooldown = cutCooldownTicks := by
  obtain ⟨learns, reason, hcut⟩ := h
  unfold tick
  rw [hcut]
  exact ⟨rfl, rfl, rfl⟩

theorem learns_of_threshold (h : (c.tick backlog syncLag).threshold ≠ c.threshold) :
    Learns c backlog syncLag := by
  unfold tick at h
  cases hadjust : c.adjustment backlog syncLag with
  | cut learns reason =>
    rw [hadjust] at h
    cases learns with
    | true => exact ⟨reason, hadjust⟩
    | false => exact absurd rfl h
  | _ => exact absurd (by rw [hadjust]; rfl) h

/-- From one cut to the next there are as many ticks as the cooldown has. -/
theorem cuts_apart {backlog' syncLag' : Int} (hcut : Cuts c backlog syncLag)
    (hrun : Trace.exec step (c.tick backlog syncLag) es = some d)
    (hcut' : Cuts d backlog' syncLag') : 3 ≤ ticks es + 1 := by
  obtain ⟨_, _, hcut'⟩ := hcut'
  have hnow := (adjustment_cut hcut').2.1
  have hbound := cooldown_run hrun
  rw [(tick_of_cut hcut).2.2, cutCooldownTicks] at hbound
  omega

/-- Within an episode the next cut comes ten ticks later at the earliest, and learns nothing. -/
theorem episode_cuts_apart {backlog' syncLag' : Int} (hcut : Cuts c backlog syncLag)
    (hrun : Trace.exec step (c.tick backlog syncLag) es = some d)
    (hunhealthy : Trace.Along step Unhealthy (c.tick backlog syncLag) es) :
    (Cuts d backlog' syncLag' → 10 ≤ ticks es + 1) ∧ ¬Learns d backlog' syncLag' := by
  obtain ⟨hon, hzero, -⟩ := tick_of_cut hcut
  obtain ⟨hon, hbound⟩ := congested_run hon hunhealthy hrun
  constructor
  · rintro ⟨learns, reason, hcut'⟩
    have := ((adjustment_cut hcut').2.2 hon).2
    rw [episodeRecutTicks] at this
    omega
  · rintro ⟨reason, hlearn⟩
    exact absurd ((adjustment_cut hlearn).2.2 hon).1 Bool.noConfusion

/-- The rate is between the floor of 1 and the ceiling. -/
structure Bounded (top : ℚ) (c : InboundRateController) : Prop where
  floor : c.floor = 1
  ceiling : c.ceiling = top
  low : 1 ≤ c.rate
  high : c.rate ≤ top

theorem tick_fixed : (c.tick backlog syncLag).floor = c.floor ∧
    (c.tick backlog syncLag).ceiling = c.ceiling := by
  unfold tick
  split <;> exact ⟨rfl, rfl⟩

theorem bounded_tick {top : ℚ} (htop : 1 ≤ top) (h : Bounded top c) :
    Bounded top (c.tick backlog syncLag) := by
  have hlow := h.low
  have hhigh := h.high
  refine ⟨tick_fixed.1.trans h.floor, tick_fixed.2.trans h.ceiling, ?_, ?_⟩
  · rcases tick_cases c backlog syncLag with ⟨-, hrate, -⟩ | ⟨-, ⟨growth, hgrow, -, hrate⟩, -⟩ |
      ⟨hrate, -⟩
    · rw [hrate, h.floor]
      exact le_max_right _ _
    · rw [hrate, h.ceiling]
      refine le_min ?_ htop
      nlinarith
    · rw [hrate]
      exact hlow
  · rcases tick_cases c backlog syncLag with ⟨-, hrate, -⟩ | ⟨-, ⟨growth, -, -, hrate⟩, -⟩ |
      ⟨hrate, -⟩
    · rw [hrate, h.floor]
      refine max_le ?_ htop
      rw [cutFactor]
      linarith
    · rw [hrate, h.ceiling]
      exact min_le_right _ _
    · rw [hrate]
      exact hhigh

theorem bounded_step {top : ℚ} (htop : 1 ≤ top) (h : Bounded top c)
    (hstep : step c e = some d) : Bounded top d := by
  cases e with
  | tick backlog syncLag =>
    cases hstep
    exact bounded_tick htop h
  | _ =>
    cases hstep
    exact { h with }

theorem bounded_new {benchmark startPercent : ℚ} (hbenchmark : 1 / 10 ≤ benchmark)
    (hstart : startPercent ≤ 1000) :
    Bounded (10 * benchmark) (newInboundRateController benchmark startPercent) := by
  have hpos : ¬benchmark ≤ 0 := by linarith
  simp only [newInboundRateController, if_neg hpos]
  refine ⟨rfl, mul_comm _ _, le_max_right _ _, max_le ?_ (by linarith)⟩
  rw [div_le_iff₀ (by norm_num)]
  nlinarith

/-- From any benchmark of at least 0.1 and start percentage up to 1000, the rate stays between 1 and
ten times the benchmark. A tick keeps it, cuts it to 0.7 of it or raises it to at most 1.5 times, on
healthy signals only; only a cut lowers it, and only a cut that learns moves the threshold. Two cuts
are at least 3 ticks apart, and in a run of unhealthy ticks 10; there the threshold is learned at
most once. -/
theorem inbound_rate_never_saws {benchmark startPercent : ℚ} (hbenchmark : 1 / 10 ≤ benchmark)
    (hstart : startPercent ≤ 1000)
    (hrun : Trace.exec step (newInboundRateController benchmark startPercent) es = some c) :
    (1 ≤ c.rate ∧ c.rate ≤ 10 * benchmark) ∧
    (∀ backlog syncLag,
      ((c.tick backlog syncLag).rate = c.rate ∨
        (c.tick backlog syncLag).rate = max (c.rate * (7 / 10)) 1 ∨
        ∃ growth, 1 ≤ growth ∧ growth ≤ 3 / 2 ∧
          (c.tick backlog syncLag).rate = min (c.rate * growth) (10 * benchmark)) ∧
      (c.healthy backlog syncLag = false → (c.tick backlog syncLag).rate ≤ c.rate) ∧
      ((c.tick backlog syncLag).rate < c.rate → Cuts c backlog syncLag) ∧
      ((c.tick backlog syncLag).threshold ≠ c.threshold → Learns c backlog syncLag)) ∧
    ∀ backlog syncLag during d backlog' syncLag', Cuts c backlog syncLag →
      Trace.exec step (c.tick backlog syncLag) during = some d →
      (Cuts d backlog' syncLag' → 3 ≤ ticks during + 1) ∧
      (Trace.Along step Unhealthy (c.tick backlog syncLag) during →
        (Cuts d backlog' syncLag' → 10 ≤ ticks during + 1) ∧ ¬Learns d backlog' syncLag') := by
  have htop : 1 ≤ 10 * benchmark := by linarith
  have hbounded : Bounded (10 * benchmark) c :=
    Trace.exec_always (bounded_step htop) (bounded_new hbenchmark hstart) hrun
  refine ⟨⟨hbounded.low, hbounded.high⟩, ?_, ?_⟩
  · intro backlog syncLag
    have hlow := hbounded.low
    rcases tick_cases c backlog syncLag with
      ⟨hcuts, hrate, -⟩ | ⟨hhealthy, ⟨growth, hone, hgrow, hrate⟩, -⟩ | ⟨hrate, -⟩
    · rw [hbounded.floor, cutFactor] at hrate
      refine ⟨.inr (.inl hrate), fun _ => ?_, fun _ => hcuts, learns_of_threshold⟩
      rw [hrate]
      exact max_le (by linarith) hlow
    · rw [hbounded.ceiling] at hrate
      have hraised : c.rate ≤ (c.tick backlog syncLag).rate := by
        rw [hrate]
        exact le_min (by nlinarith) hbounded.high
      refine ⟨.inr (.inr ⟨growth, hone, hgrow, hrate⟩), fun hunhealthy => ?_,
        fun hlower => absurd hlower hraised.not_gt, learns_of_threshold⟩
      rw [hhealthy] at hunhealthy
      cases hunhealthy
    · exact ⟨.inl hrate, fun _ => hrate.le, fun hlower => absurd hlower hrate.not_lt,
        learns_of_threshold⟩
  · intro backlog syncLag during d backlog' syncLag' hcut hduring
    exact ⟨cuts_apart hcut hduring, episode_cuts_apart hcut hduring⟩

/-- The disk stays a second behind: the first tick cuts and learns the threshold, and the next cut
comes ten ticks later. -/
theorem inbound_rate_cuts_again :
    ∃ c d, Trace.exec step (newInboundRateController 100 40) [.setSyncLagSource 0] = some c ∧
      Learns c 0 1000000000 ∧
      Trace.exec step (c.tick 0 1000000000) (List.replicate 9 (.tick 0 1000000000)) = some d ∧
      Cuts d 0 1000000000 ∧ d.threshold = 36 ∧
      10 ≤ ticks (List.replicate 9 (.tick 0 1000000000)) + 1 ∧ ¬Learns d 0 1000000000 := by
  have hcheck : ∃ c ∈ Trace.exec step (newInboundRateController 100 40) [.setSyncLagSource 0],
      c.adjustment 0 1000000000 = .cut true "cut: disk behind" ∧
      Trace.Along step Unhealthy (c.tick 0 1000000000)
        (List.replicate 9 (.tick 0 1000000000)) ∧
      ∃ d ∈ Trace.exec step (c.tick 0 1000000000) (List.replicate 9 (.tick 0 1000000000)),
        d.adjustment 0 1000000000 = .cut false "cut: disk behind" ∧ d.threshold = 36 := by
    decide +kernel
  obtain ⟨c, hc, hlearn, hunhealthy, d, hd, hcut, hthreshold⟩ := hcheck
  have hspace := (inbound_rate_never_saws (by norm_num) (by norm_num) hc).2.2 0 1000000000
    (List.replicate 9 (.tick 0 1000000000)) d 0 1000000000 ⟨_, _, hlearn⟩ hd
  obtain ⟨happart, hlearns⟩ := hspace.2 hunhealthy
  exact ⟨c, d, hc, ⟨_, hlearn⟩, hd, ⟨_, _, hcut⟩, hthreshold, happart ⟨_, _, hcut⟩, hlearns⟩

end InboundRateController

end Aquifer
