import Aquifer.Core.Intake
import Aquifer.Dispatch.RegistrySteps

/-! The circuit breaker of direct attempts: a deadline in each URL worker, which the answers of
overlapping attempts set, over the registry that drops workers and creates them again. -/
namespace Aquifer

/-- The environment `breakerCooldown` reads, in seconds. -/
structure BreakerEnv where
  retryMultiplier : Int := 3
  defaultCooldown : Int := 5

/-- A target's answer as far as the breaker goes: what `isOverloadSignal` makes of it, the
`Queue-Active` header, and the number in `Retry-After`. -/
structure BreakerAnswer where
  overload : Option OverloadKind := none
  queueActive : Bool := false
  retryAfter : Option Int := none
deriving DecidableEq, Repr

def second : Time := 1000000000

/-- `breakerCooldown`, whose products are `int64` ones. -/
def BreakerEnv.breakerCooldown (env : BreakerEnv) (resp : BreakerAnswer) : Time :=
  match resp.retryAfter with
  | some secs =>
    if 0 < secs then int64 (secs * env.retryMultiplier * second)
    else int64 (env.defaultCooldown * second)
  | none => int64 (env.defaultCooldown * second)

/-- The kind of the trip that an answer asks for. -/
def BreakerAnswer.trip (resp : BreakerAnswer) : Option OverloadKind :=
  match resp.overload with
  | some kind => some kind
  | none => if resp.queueActive then some .queue else none

/-- How far a direct attempt has come: with its worker; past the breaker's check; under way. -/
inductive DirectStage
  | resolved
  | checked
  | started
deriving DecidableEq, Repr

structure DirectAttempt where
  target : String
  worker : Nat
  stage : DirectStage
deriving DecidableEq, Repr

/-- A cooldown that an answer of a target asked for, and when the answer was handled. -/
structure Cooldown where
  target : String
  handled : Time
  cooldown : Time
deriving DecidableEq, Repr

def Cooldown.ends (a : Cooldown) : Time := a.handled + a.cooldown

/-- The registry, the `breakerUntil` and `breakerKind` of each worker, the clock, the attempts in
progress, and every cooldown asked for so far. -/
structure Breakers where
  registry : Registry := {}
  breaker : Nat → Option (Time × OverloadKind) := fun _ => none
  now : Time := 0
  attempts : Assoc Nat DirectAttempt := ∅
  asked : List Cooldown := []

inductive BreakerEvent
  | registry (e : Registry.Event)
  | tick (d : Nat)
  /-- `WorkerFor`, the first step of an attempt. -/
  | workerFor (id : Nat) (job : Job)
  | checkBreaker (id : Nat)
  /-- The attempt falls back, as it does when a queue of the worker is active. -/
  | fallBack (id : Nat)
  | start (id : Nat)
  /-- The answer is handled; there is none if the request failed. -/
  | answer (id : Nat) (resp : Option BreakerAnswer)

namespace Breakers

variable {c : Routing} {env : BreakerEnv} {s t : Breakers} {e : BreakerEvent}

def breakerOpen (s : Breakers) (w : Nat) : Bool := (s.breaker w).any fun b => s.now < b.1

/-- `TripBreaker`, which overwrites the deadline. -/
def tripBreaker (s : Breakers) (w : Nat) (cooldown : Time) (kind : OverloadKind) : Breakers :=
  { s with breaker := Function.update s.breaker w (some (s.now + cooldown, kind)) }

/-- What the answer to an attempt does to its worker. -/
def handle (env : BreakerEnv) (s : Breakers) (a : DirectAttempt) (resp : BreakerAnswer) :
    Breakers :=
  match resp.trip with
  | some kind =>
    { s.tripBreaker a.worker (env.breakerCooldown resp) kind with
      asked := ⟨a.target, s.now, env.breakerCooldown resp⟩ :: s.asked }
  | none => s

def endAttempt (s : Breakers) (id : Nat) : Breakers := { s with attempts := s.attempts.erase id }

def setStage (s : Breakers) (id : Nat) (a : DirectAttempt) (stage : DirectStage) : Breakers :=
  { s with attempts := s.attempts.insert id { a with stage := stage } }

def step (c : Routing) (env : BreakerEnv) (s : Breakers) : BreakerEvent → Option Breakers
  | .registry e => (s.registry.step c e).map fun r => { s with registry := r }
  | .tick d => some { s with now := s.now + d }
  -- pool-routed jobs are never attempted directly
  | .workerFor id job =>
    if (s.attempts.lookup id).isNone ∧ job.poolID = "" then
      let (r, w) := s.registry.resolveWorker c (c.workerKey job) true
      some { s with registry := r
                    attempts := s.attempts.insert id ⟨c.workerKey job, w, .resolved⟩ }
    else none
  | .checkBreaker id =>
    match s.attempts.lookup id with
    | some a =>
      if a.stage = .resolved then
        some (if s.breakerOpen a.worker then s.endAttempt id else s.setStage id a .checked)
      else none
    | none => none
  | .fallBack id =>
    match s.attempts.lookup id with
    | some a => if a.stage = .checked then some (s.endAttempt id) else none
    | none => none
  | .start id =>
    match s.attempts.lookup id with
    | some a => if a.stage = .checked then some (s.setStage id a .started) else none
    | none => none
  | .answer id resp =>
    match s.attempts.lookup id with
    | some a =>
      if a.stage = .started then
        some ((match resp with
          | some resp => s.handle env a resp
          | none => s).endAttempt id)
      else none
    | none => none

def Runs (s : Breakers) (a : Cooldown) : Prop := s.now < a.ends

/-- No worker is created for a target whose cooldown runs, when the registry goes on to `r`. -/
def Keeps (s : Breakers) (r : Registry) : Prop :=
  ∀ a ∈ s.asked, s.Runs a → s.registry.workers.lookup a.target = none →
    r.workers.lookup a.target = none

/-- What the one deadline of one worker needs: no worker is created for a target while a cooldown of
it runs; a check is made on the registered worker; and an answer that asks for a cooldown is not
recorded on a worker that another has replaced, does not move a running deadline forward in time,
and does not come between the check and the start of another attempt. -/
def Orderly (c : Routing) (env : BreakerEnv) (s : Breakers) : BreakerEvent → Prop
  | .registry e => ∀ r ∈ s.registry.step c e, s.Keeps r
  | .workerFor _ job => s.Keeps (s.registry.resolveWorker c (c.workerKey job) true).1
  | .checkBreaker id => ∀ a ∈ s.attempts.lookup id,
      s.registry.workers.lookup a.target = some a.worker
  | .answer id resp => ∀ a ∈ s.attempts.lookup id, ∀ r ∈ resp, r.trip ≠ none →
      (∀ w ∈ s.registry.workers.lookup a.target, w = a.worker) ∧
      (∀ b ∈ s.breaker a.worker, s.now < b.1 → b.1 ≤ s.now + env.breakerCooldown r) ∧
      ∀ b ∈ s.attempts.entries, b.2.target = a.target → b.2.stage ≠ .checked
  | .tick _ | .fallBack _ | .start _ => True

instance (s : Breakers) (a : Cooldown) : Decidable (s.Runs a) :=
  inferInstanceAs (Decidable (_ < _))

instance (s : Breakers) (r : Registry) : Decidable (s.Keeps r) :=
  inferInstanceAs (Decidable (∀ a ∈ s.asked, s.Runs a → _))

instance (c : Routing) (env : BreakerEnv) (s : Breakers) :
    (e : BreakerEvent) → Decidable (s.Orderly c env e)
  | .registry e => inferInstanceAs (Decidable (∀ r ∈ s.registry.step c e, s.Keeps r))
  | .workerFor _ _ => inferInstanceAs (Decidable (s.Keeps _))
  | .checkBreaker id => inferInstanceAs (Decidable (∀ a ∈ s.attempts.lookup id, _))
  | .answer id resp => inferInstanceAs (Decidable (∀ a ∈ s.attempts.lookup id, ∀ r ∈ resp, _ → _))
  | .tick _ | .fallBack _ | .start _ => isTrue trivial

/-- What orderly runs keep: the deadline of the registered worker covers every cooldown that runs,
and an attempt that is past its check has none of its target's to wait for. -/
structure Honoured (s : Breakers) : Prop where
  covered : ∀ a ∈ s.asked, s.Runs a → ∀ w ∈ s.registry.workers.lookup a.target,
    ∃ b ∈ s.breaker w, a.ends ≤ b.1
  clear : ∀ id d, s.attempts.lookup id = some d → d.stage = .checked →
    ∀ a ∈ s.asked, a.target = d.target → ¬ s.Runs a

theorem honoured_registry {r : Registry} (h : Honoured s) (hkeep : s.Keeps r)
    (hlookup : ∀ {key v}, r.workers.lookup key = some v →
      s.registry.workers.lookup key = some v ∨
        s.registry.workers.lookup key = none ∧ s.registry.workerCount ≤ v) :
    Honoured { s with registry := r } where
  __ := h
  covered := by
    intro a ha hruns w hw
    rcases hlookup hw with hsame | ⟨hnone, -⟩
    · exact h.covered a ha hruns w hsame
    · rw [Option.mem_def, hkeep a ha hruns hnone] at hw
      cases hw

theorem honoured_tick (h : Honoured s) (d : Nat) : Honoured { s with now := s.now + d } := by
  have hruns {a : Cooldown} (hr : Runs { s with now := s.now + d } a) : s.Runs a :=
    (Int.le_add_of_nonneg_right (Int.natCast_nonneg d)).trans_lt hr
  exact ⟨fun a ha hr => h.covered a ha (hruns hr),
    fun id b hb hstage a ha htarget hr => h.clear id b hb hstage a ha htarget (hruns hr)⟩

theorem honoured_endAttempt (h : Honoured s) (id : Nat) : Honoured (s.endAttempt id) where
  __ := h
  clear := by
    intro id' d hd
    rw [endAttempt, Assoc.lookup_erase_ite] at hd
    split at hd
    · cases hd
    · exact h.clear id' d hd

theorem honoured_insert {id : Nat} {d : DirectAttempt} (h : Honoured s)
    (hclear : d.stage = .checked → ∀ a ∈ s.asked, a.target = d.target → ¬ s.Runs a) :
    Honoured { s with attempts := s.attempts.insert id d } where
  __ := h
  clear := by
    intro id' d' hd
    rw [Assoc.lookup_insert_ite] at hd
    split at hd
    · cases hd
      exact hclear
    · exact h.clear id' d' hd

/-- Past a closed breaker of the registered worker no cooldown of the target runs. -/
theorem not_runs_of_closed {d : DirectAttempt} (h : Honoured s)
    (hworker : s.registry.workers.lookup d.target = some d.worker)
    (hclosed : s.breakerOpen d.worker = false) :
    ∀ a ∈ s.asked, a.target = d.target → ¬ s.Runs a := by
  intro a ha htarget hruns
  obtain ⟨b, hb, hle⟩ := h.covered a ha hruns d.worker (htarget ▸ hworker)
  have hopen : s.breakerOpen d.worker = true := by
    rw [breakerOpen, Option.mem_def.mp hb, Option.any_some, decide_eq_true_iff]
    exact hruns.trans_le hle
  exact absurd (hopen.symm.trans hclosed) (by simp)

theorem honoured_handle {d : DirectAttempt} {resp : BreakerAnswer} (h : Honoured s)
    (hok : resp.trip ≠ none →
      (∀ w ∈ s.registry.workers.lookup d.target, w = d.worker) ∧
      (∀ b ∈ s.breaker d.worker, s.now < b.1 → b.1 ≤ s.now + env.breakerCooldown resp) ∧
      ∀ b ∈ s.attempts.entries, b.2.target = d.target → b.2.stage ≠ .checked) :
    Honoured (s.handle env d resp) := by
  unfold handle
  split
  · next kind htrip =>
    obtain ⟨hcurrent, hlater, hnone⟩ := hok (by simp [htrip])
    constructor
    · intro a ha hruns w hw
      by_cases hwd : w = d.worker
      · subst hwd
        refine ⟨(s.now + env.breakerCooldown resp, kind), by simp [tripBreaker], ?_⟩
        rcases List.mem_cons.mp ha with rfl | ha
        · exact le_rfl
        · obtain ⟨b, hb, hle⟩ := h.covered a ha hruns d.worker hw
          exact hle.trans (hlater b hb (hruns.trans_le hle))
      · rcases List.mem_cons.mp ha with rfl | ha
        · exact absurd (hcurrent w hw) hwd
        · obtain ⟨b, hb, hle⟩ := h.covered a ha hruns w hw
          exact ⟨b, by simpa [tripBreaker, Function.update_of_ne hwd] using hb, hle⟩
    · intro id b hb hstage a ha htarget
      rcases List.mem_cons.mp ha with rfl | ha
      · exact absurd hstage (hnone ⟨id, b⟩ (Assoc.mem_entries_iff.mpr hb) htarget.symm)
      · exact h.clear id b hb hstage a ha htarget
  · exact h

theorem honoured_step (h : Honoured s) (hok : s.Orderly c env e) (hstep : s.step c env e = some t) :
    Honoured t := by
  cases e with
  | registry e =>
    obtain ⟨r, hr, rfl⟩ := Option.map_eq_some_iff.mp hstep
    exact honoured_registry h (hok r hr)
      (Registry.lookup_workers_step (Registry.stepped_of_step hr))
  | tick d =>
    cases hstep
    exact honoured_tick h d
  | workerFor id job =>
    obtain ⟨-, ⟨⟩⟩ := Option.ite_none_right_eq_some.mp hstep
    exact honoured_insert (honoured_registry h hok Registry.lookup_of_resolveWorker) (by simp)
  | checkBreaker id =>
    simp only [step] at hstep
    split at hstep
    · next d hd =>
      obtain ⟨-, ⟨⟩⟩ := Option.ite_none_right_eq_some.mp hstep
      split
      · exact honoured_endAttempt h id
      · next hclosed =>
        exact honoured_insert h fun _ => not_runs_of_closed h (hok d hd) (by simpa using hclosed)
    · cases hstep
  | fallBack id =>
    simp only [step] at hstep
    split at hstep
    · obtain ⟨-, ⟨⟩⟩ := Option.ite_none_right_eq_some.mp hstep
      exact honoured_endAttempt h id
    · cases hstep
  | start id =>
    simp only [step] at hstep
    split at hstep
    · obtain ⟨-, ⟨⟩⟩ := Option.ite_none_right_eq_some.mp hstep
      exact honoured_insert h (by simp)
    · cases hstep
  | answer id resp =>
    simp only [step] at hstep
    split at hstep
    · next d hd =>
      obtain ⟨-, ⟨⟩⟩ := Option.ite_none_right_eq_some.mp hstep
      refine honoured_endAttempt ?_ id
      cases resp with
      | none => exact h
      | some resp => exact honoured_handle h (hok d hd resp rfl)
    · cases hstep

/-- In an orderly run a direct attempt starts only when every cooldown that its target has asked for
is over. -/
theorem cooldowns_honoured (c : Routing) (env : BreakerEnv) (now : Time) (es : List BreakerEvent)
    (id : Nat) (d : DirectAttempt)
    (hok : Trace.Along (step c env) (Orderly c env) { now := now } es)
    (hrun : Trace.exec (step c env) { now := now } es = some s)
    (hd : s.attempts.lookup id = some d) (hstart : s.step c env (.start id) = some t) :
    ∀ a ∈ s.asked, a.target = d.target → ¬ s.now < a.handled + a.cooldown := by
  have hempty : Honoured { now := now } := by
    refine ⟨List.forall_mem_nil _, fun id d hd => ?_⟩
    cases hd
  have hh := Trace.exec_invariant honoured_step hempty hok hrun
  simp only [step, hd] at hstart
  obtain ⟨hstage, -⟩ := Option.ite_none_right_eq_some.mp hstart
  exact hh.clear id d hd hstage

def oneTarget : Routing where
  domainKey url := url
  sha256String _ := "0"
  sha256_plain _ := Routing.zero_plain

def targeted : Job := { id := "j", userID := "u" }

/-- An attempt that has started, and the answer 429 with a `Retry-After`, if there is one. -/
def attempted (id : Nat) : List BreakerEvent :=
  [.workerFor id targeted, .checkBreaker id, .start id]

def overloaded (id : Nat) (retryAfter : Option Int) : BreakerEvent :=
  .answer id (some { overload := some .queue, retryAfter := retryAfter })

def seconds (n : Nat) : BreakerEvent := .tick (n * 1000000000)

/-- A second attempt, about to start when the cooldown of the first one's answer is over. -/
def patient : List BreakerEvent :=
  attempted 0 ++ [overloaded 0 (some 1), seconds 3, .workerFor 1 targeted, .checkBreaker 1]

theorem attempt_after_cooldown :
    ∃ s t, Trace.exec (step oneTarget {}) {} patient = some s ∧
      s.step oneTarget {} (.start 1) = some t ∧ s.asked.length = 1 ∧
      ∀ a ∈ s.asked, a.target = "" → ¬ s.now < a.handled + a.cooldown := by
  have hok : Trace.Along (step oneTarget {}) (Orderly oneTarget {}) {} patient := by
    decide +kernel
  obtain ⟨s, hrun, hd, hasked, hsome⟩ : ∃ s, Trace.exec (step oneTarget {}) {} patient = some s ∧
      s.attempts.lookup 1 = some ⟨"", 0, .checked⟩ ∧ s.asked.length = 1 ∧
      (s.step oneTarget {} (.start 1)).isSome = true := by
    decide +kernel
  obtain ⟨t, hstart⟩ := Option.isSome_iff_exists.mp hsome
  exact ⟨s, t, hrun, hstart, hasked, cooldowns_honoured oneTarget {} 0 patient 1 _ hok
    hrun hd hstart⟩

/-- After the run the attempt starts although a cooldown of its target runs. -/
def startsEarly (es : List BreakerEvent) (id : Nat) : Bool :=
  (Trace.exec (step oneTarget {}) {} es).any fun s =>
    (s.step oneTarget {} (.start id)).isSome &&
      (s.attempts.lookup id).any fun d =>
        s.asked.any fun a => a.target = d.target && s.now < a.handled + a.cooldown

/-- The run of a job through the only queue of the worker, which then retires. -/
def queuedAndRetired : List BreakerEvent :=
  [.submit targeted, .resolve "j", .reserve "j" none, .handoff "j", .account "j", .take 0 false,
    .finish 0 "j", .idle 0, .check 0, .onIdle 0, .notify 0].map .registry

/-- A cooldown of 300 s is cut to 5 s by the answer to an attempt that was under way; it is gone
with the worker once a queue of it has come and gone; and it comes too late for an attempt that has
checked the breaker and not started. -/
theorem cooldown_not_honoured :
    startsEarly (attempted 0 ++ attempted 1 ++
      [overloaded 0 (some 100), seconds 1, overloaded 1 none,
      seconds 10, .workerFor 2 targeted, .checkBreaker 2]) 2 = true ∧
    startsEarly (attempted 0 ++ [overloaded 0 (some 100)] ++ queuedAndRetired ++
      [.workerFor 1 targeted, .checkBreaker 1]) 1 = true ∧
    startsEarly
      (attempted 0 ++ [.workerFor 1 targeted, .checkBreaker 1, overloaded 0 (some 100)]) 1 =
      true := by
  decide +kernel

end Breakers

end Aquifer
