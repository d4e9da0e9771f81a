import Aquifer.Dispatch.Backlog

/-! A supervised queue: what restarts keep of its concurrency limit and of its backlog. -/
namespace Aquifer.AccountQueue

variable {c : QueueConfig} {q t : AccountQueue} {e : Event}

def attempts (q : AccountQueue) : Nat :=
  q.running.length + (q.done.filterMap DoneMsg.job).length

/-- The loop counts every attempt and never counts more than the configured limit. -/
def Limited (c : QueueConfig) (q : AccountQueue) : Prop :=
  (q.attempts : Int) ≤ q.inFlight ∧ q.inFlight ≤ max 0 c.configuredMaxConc ∧
    q.maxConc ≤ c.configuredMaxConc

/-- A panic of the loop, recovered by `supervise`, finds no attempt in flight. -/
def quietPanic (q : AccountQueue) : Event → Bool
  | .panic _ => decide (q.inFlightJobs = [])
  | _ => true

theorem limited_new (store : Store) : Limited c (new c store) :=
  ⟨le_refl 0, le_max_left 0 _, le_refl _⟩

/-- The attempts, their messages, their number and its limit. -/
def pipeline (q : AccountQueue) : List Attempt × List DoneMsg × Int × Int :=
  (q.running, q.done, q.inFlight, q.maxConc)

/-- The steps that start, run or end attempts, or set their limit. -/
def paced : Event → Bool
  | .throttle | .execute .. | .report _ | .dispatch _ | .recvDone _ | .idle | .panic _
  | .stopReport _ => true
  | _ => false

theorem pipeline_hold (q : AccountQueue) (job : Job) : (q.hold job).pipeline = q.pipeline := by
  unfold hold trackDeadline
  split <;> rfl

theorem pipeline_consume (q : AccountQueue) (i : Nat) (job : Job) :
    (q.consume i job).pipeline = q.pipeline := by
  unfold consume
  split <;> rfl

theorem pipeline_loadNext (q : AccountQueue) (job : Job) :
    (q.loadNext job).pipeline = q.pipeline := by
  unfold loadNext loadJob
  split
  · split
    · exact pipeline_consume q 0 job
    · rfl
  · exact (pipeline_hold _ job).trans (pipeline_consume q 0 job)

theorem pipeline_finishSpill (q : AccountQueue) : q.finishSpill.pipeline = q.pipeline := by
  unfold finishSpill
  split <;> rfl

theorem pipeline_sweepJob (i : Nat) (now : Time) (q : AccountQueue) (job : Job) :
    (sweepJob i now q job).pipeline = q.pipeline := by
  unfold sweepJob
  split
  · rfl
  · exact pipeline_consume q i job

/-- Every other step leaves the attempts as they are. -/
theorem pipeline_step (he : paced e = false) (hstep : q.step c e = some t) :
    t.pipeline = q.pipeline := by
  have hspec := step_spec hstep
  cases e <;> simp only [StepSpec] at hspec
  case reserve | attachSpill | external | refillFail | stop =>
    subst hspec
    rfl
  case setKey | send | takeSpills | stopLoop =>
    obtain ⟨-, rfl⟩ := hspec
    rfl
  case stopHandoff =>
    obtain ⟨-, -, rfl⟩ := hspec
    rfl
  case refillPage =>
    obtain ⟨-, -, rfl⟩ := hspec
    refine refillPage_induct (P := fun u => u.pipeline = q.pipeline) (fun u v hu => hu) ?_ ?_ rfl
    · exact fun u src rest r _ _ _ _ hu => (pipeline_loadNext u _).trans hu
    · exact fun u src rest _ _ hu => (pipeline_finishSpill u).trans hu
  case dropExpiredJobs | dropExpiredWaiting | failDeadTarget | retryDue =>
    exact scan_induct (P := fun u => u.pipeline = q.pipeline) (fun u d hu => hu)
      (fun u now hu => hu) (fun u a job b reason now hu => hu)
      (fun u a w b reason now hu => hu) (fun u a w b hu => hu) rfl hstep rfl
  case recvCmd =>
    obtain ⟨job, rest, -, ⟨-, rfl⟩ | ⟨-, rfl⟩⟩ := hspec
    · exact pipeline_hold { q with cmds := rest } job
    · rfl
  case sweepStart =>
    rcases hspec with ⟨-, rfl | rfl⟩ <;> rfl
  case sweepPage =>
    obtain ⟨w, -, rfl⟩ := hspec
    refine sweepPage_induct (P := fun u => u.pipeline = q.pipeline) (fun u v hu => hu) ?_ rfl
    exact fun _ _ u src r _ _ _ _ _ _ _ _ _ hu => (pipeline_sweepJob _ _ u _).trans hu
  case sweepFail =>
    obtain ⟨w, -, rfl⟩ := hspec
    rfl
  all_goals cases he

/-- What a step does to the attempts, to their number as the loop counts it, and to its limit. -/
inductive Moved (c : QueueConfig) (q t : AccountQueue) : Event → Prop
  | kept {e : Event} (hrunning : t.running.length ≤ q.running.length)
    (hall : t.attempts ≤ q.attempts) (hcount : t.inFlight = q.inFlight)
    (hlimit : t.maxConc = q.maxConc ∨ t.maxConc = c.configuredMaxConc) : Moved c q t e
  | started {now : Time} (hslot : q.inFlight < q.maxConc)
    (hrunning : t.running.length = q.running.length + 1) (hall : t.attempts = q.attempts + 1)
    (hcount : t.inFlight = q.inFlight + 1) (hlimit : t.maxConc = q.maxConc) :
    Moved c q t (.dispatch now)
  | ended {now : Time} {job : Job} {o : Outcome} {rest : List DoneMsg}
    (hq : q.done = .attempt job o :: rest) (hrunning : t.running = q.running)
    (hall : t.attempts + 1 = q.attempts) (hcount : t.inFlight = q.inFlight - 1)
    (hlimit : t.maxConc = q.maxConc ∨
      ∃ n, o.maxConcurrent = some n ∧ 0 < n ∧ t.maxConc = min n c.configuredMaxConc) :
    Moved c q t (.recvDone now)
  | panicked {now : Time} (hrunning : t.running = q.running) (hall : t.attempts = q.attempts)
    (hcount : t.inFlight = 0) (hlimit : t.maxConc = c.configuredMaxConc) : Moved c q t (.panic now)

theorem Moved.of_pipeline (hp : t.pipeline = q.pipeline) : Moved c q t e := by
  simp only [pipeline, Prod.mk.injEq] at hp
  obtain ⟨hrunning, hdone, hinFlight, hmaxConc⟩ := hp
  exact .kept (by rw [hrunning]) (by rw [attempts, attempts, hrunning, hdone]) hinFlight
    (.inl hmaxConc)

theorem endAttempt_pipeline (q : AccountQueue) (job : Job) (o : Outcome) :
    (q.endAttempt job o).pipeline = { q with inFlight := q.inFlight - 1 }.pipeline := by
  unfold endAttempt
  split <;> rfl

theorem hear_pipeline (q : AccountQueue) (o : Outcome) (now : Time) :
    (q.hear o now).pipeline = q.pipeline := by
  unfold hear
  split
  · rfl
  · split <;> rfl

/-- A report ends one attempt, and may set the limit but not past the configured one. -/
theorem moved_recvReport {job : Job} {o : Outcome} {rest : List DoneMsg} {now : Time}
    (hq : q.done = .attempt job o :: rest) :
    Moved c q (recvReport c { q with done := rest } job o now) (.recvDone now) := by
  have hall : ({ q with done := rest } : AccountQueue).attempts + 1 = q.attempts := by
    simp only [attempts, hq, List.filterMap_cons, DoneMsg.job, List.length_cons]
    omega
  have hheard := (hear_pipeline (endAttempt { q with done := rest } job o) o now).trans
    (endAttempt_pipeline { q with done := rest } job o)
  simp only [pipeline, Prod.mk.injEq] at hheard
  obtain ⟨hrunning, hdone, hinFlight, hmaxConc⟩ := hheard
  have hsame : ((endAttempt { q with done := rest } job o).hear o now).attempts =
      ({ q with done := rest } : AccountQueue).attempts := by
    rw [attempts, attempts, hrunning, hdone]
  unfold recvReport setMaxConc
  split
  · next n hn =>
    split
    · next hpos =>
      exact .ended hq hrunning (hsame ▸ hall) hinFlight (.inr ⟨n, hn, hpos, rfl⟩)
    · exact .ended hq hrunning (hsame ▸ hall) hinFlight (.inl hmaxConc)
  · exact .ended hq hrunning (hsame ▸ hall) hinFlight (.inl hmaxConc)

theorem moved_of_step (hstep : q.step c e = some t) : Moved c q t e := by
  have hspec := step_spec hstep
  cases e <;> simp only [StepSpec] at hspec
  case stopReport i =>
    obtain ⟨-, rfl⟩ := hspec
    have hle : (q.running.eraseIdx i).length ≤ q.running.length :=
      (List.eraseIdx_sublist _ _).length_le
    exact .kept hle (Nat.add_le_add_right hle _) rfl (.inl rfl)
  case throttle =>
    rcases hspec with rfl | rfl
    · exact .kept le_rfl (by simp [attempts, List.filterMap_cons, DoneMsg.job]) rfl (.inl rfl)
    · exact .of_pipeline rfl
  case execute i x =>
    obtain ⟨job, a, b, hq, -, rfl⟩ := hspec
    cases (Aquifer.execute job x).1 <;>
      exact .kept (by simp [hq]) (by simp [attempts, applyEffect, writeTerminal, hq]) rfl (.inl rfl)
  case report =>
    obtain ⟨job, o, a, b, hq, rfl⟩ := hspec
    refine .kept ?_ ?_ rfl (.inl rfl)
    · simp only [hq, List.length_append, List.length_cons]
      omega
    · simp only [attempts, hq, List.filterMap_append, List.length_append, List.length_cons,
        List.filterMap_cons, List.filterMap_nil, DoneMsg.job, List.length_nil]
      omega
  case dispatch =>
    obtain ⟨job, rest, -, hlt, -, rfl⟩ := hspec
    refine .started hlt (by simp) ?_ rfl rfl
    simp only [attempts, List.length_append, List.length_cons, List.length_nil]
    omega
  case recvDone =>
    rcases hspec with ⟨rest, hq, rfl⟩ | ⟨job, o, rest, hq, rfl⟩
    · exact .kept le_rfl (by simp [attempts, hq, List.filterMap_cons, DoneMsg.job]) rfl (.inl rfl)
    · exact moved_recvReport hq
  case idle =>
    obtain ⟨-, -, -, -, rfl | rfl⟩ := hspec
    · exact .of_pipeline rfl
    · exact .kept le_rfl le_rfl rfl (.inr rfl)
  case panic now =>
    subst hspec
    unfold AccountQueue.panic
    split
    · exact .of_pipeline rfl
    · exact .panicked rfl rfl rfl rfl
  all_goals exact .of_pipeline (pipeline_step rfl hstep)

theorem limited_step (h : Limited c q) (hok : q.quietPanic e = true)
    (hstep : q.step c e = some t) : Limited c t := by
  obtain ⟨hall, hmax, hconf⟩ := h
  rw [Limited]
  cases moved_of_step hstep with
  | kept _ hall' hcount hlimit => omega
  | started hslot _ hall' hcount hlimit => omega
  | ended _ _ hall' hcount hlimit =>
    rcases hlimit with hlimit | ⟨n, -, -, hlimit⟩ <;> omega
  | panicked _ hall' hcount hlimit =>
    rw [quietPanic, decide_eq_true_iff, inFlightJobs, List.append_eq_nil_iff,
      List.map_eq_nil_iff] at hok
    have hnone : q.attempts = 0 := by simp [attempts, hok.1, hok.2]
    omega

def slots (n : Int) : QueueConfig := { smallConfig with configuredMaxConc := n }

def handOver (n : Nat) : List Event :=
  [.reserve (smallJob n), .setKey (smallJob n), .send (smallJob n), .recvCmd 0 0]

/-- A panic with one job queued, and the dispatch of the job once it is loaded again. -/
def restarted : List Event := handOver 1 ++ [.panic 0, .refillPage 0 0, .dispatch 0]

end Aquifer.AccountQueue
