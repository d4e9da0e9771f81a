import Aquifer.Dispatch.Sections
import Mathlib.Data.List.Count
import Mathlib.Data.Finset.Card

/-! The books of a queue: where each job is held, and what was done for it when it left. -/
namespace Aquifer

def Note.accepts (id : String) : Note → Bool
  | .accepted job => job.id = id
  | _ => false

def Note.ends (id : String) : Note → Bool
  | .terminal i status _ => i = id && !status.pending
  | _ => false

/-- A note the books are not made of. -/
def Note.aside : Note → Bool
  | .dispatched _ _ | .swept _ => true
  | _ => false

/-- The job of an attempt that has not ended it: under way, or to be retried. -/
def Attempt.openJob (a : Attempt) : Option Job :=
  if a.outcome.all (·.retry.isSome) then some a.job else none

def DoneMsg.openJob : DoneMsg → Option Job
  | .throttle => none
  | .attempt job o => if o.retry.isSome then some job else none

/-- The job of an attempt that has ended it. -/
def Attempt.closedJob (a : Attempt) : Option Job :=
  if a.outcome.any (·.retry.isNone) then some a.job else none

def DoneMsg.closedJob : DoneMsg → Option Job
  | .throttle => none
  | .attempt job o => if o.retry.isNone then some job else none

/-- What one attempt comes to: a terminal write, a retry with one more attempt on the job's
account, or, only when the queue stops, a job put back. -/
theorem execute_cases (job : Job) (x : Exchange) :
    (∃ status reason, status.pending = false ∧ (execute job x).1 = .terminal status reason ∧
      (execute job x).2.1 = job ∧ (execute job x).2.2.retry = none) ∨
    (∃ time reason, job.hasRetriesLeft = true ∧ (execute job x).1 = .retry (job.attempts + 1) ∧
      (execute job x).2.1 = { job with attempts := job.attempts + 1 } ∧
      (execute job x).2.2.retry = some (time, reason)) ∨
    (x.response = .cancelled ∧ (execute job x).1 = .requeue ∧ (execute job x).2.1 = job ∧
      (execute job x).2.2.retry = none) := by
  have hfail (reason : String) (retryAfter mc : Option Int) (isLocal : Bool) :
      (∃ status why, status.pending = false ∧
        (executeFailed job x reason retryAfter mc isLocal).1 = .terminal status why ∧
        (executeFailed job x reason retryAfter mc isLocal).2.1 = job ∧
        (executeFailed job x reason retryAfter mc isLocal).2.2.retry = none) ∨
      (∃ time why, job.hasRetriesLeft = true ∧
        (executeFailed job x reason retryAfter mc isLocal).1 = .retry (job.attempts + 1) ∧
        (executeFailed job x reason retryAfter mc isLocal).2.1 =
          { job with attempts := job.attempts + 1 } ∧
        (executeFailed job x reason retryAfter mc isLocal).2.2.retry = some (time, why)) := by
    unfold executeFailed
    dsimp only
    split
    · exact .inl ⟨.failed, _, rfl, rfl, rfl, rfl⟩
    · next h => exact .inr ⟨_, _, by simp_all, rfl, rfl, rfl⟩
  unfold execute
  split
  · exact .inl ⟨.failed, _, rfl, rfl, rfl, rfl⟩
  split
  · next hc => exact .inr (.inr ⟨hc, rfl, rfl, rfl⟩)
  · exact (hfail _ _ _ _).imp_right .inl
  · split
    · exact (hfail _ _ _ _).imp_right .inl
    · exact .inl ⟨.completed, _, rfl, rfl, rfl, rfl⟩

namespace AccountQueue

variable {c : QueueConfig} {q t : AccountQueue} {e : Event} {id : String} {job : Job} {now : Time}
  {reason : String} {status : Status}

def openJobs (q : AccountQueue) : List Job :=
  q.queue ++ q.waiting.map WaitingJob.job ++
    (q.running.filterMap Attempt.openJob ++ q.done.filterMap DoneMsg.openJob)

/-- The held jobs with a terminal status, whose attempts the loop has not heard of. -/
def closedJobs (q : AccountQueue) : List Job :=
  q.running.filterMap Attempt.closedJob ++ q.done.filterMap DoneMsg.closedJob

/-- The books of one job: it is held at most once, and every time it was taken into memory it
is still held or was let go of by one call of each kind, and is still open or was ended once. -/
structure Balanced (q : AccountQueue) (id : String) : Prop where
  once : q.heldIds.count id = if id ∈ q.present then 1 else 0
  released : q.log.countP (Note.accepts id) = q.log.count (.released id) + q.heldIds.count id
  served : q.log.countP (Note.accepts id) = q.log.count (.served id) + q.heldIds.count id
  jobDone : q.log.countP (Note.accepts id) = q.log.count (.jobDone id) + q.heldIds.count id
  ended : q.log.countP (Note.accepts id) =
    q.log.countP (Note.ends id) + (q.openJobs.map Job.id).count id

theorem heldIds_count (q : AccountQueue) (id : String) : q.heldIds.count id =
    (q.queue.map Job.id).count id + (q.waiting.map fun w => w.job.id).count id +
      ((q.running.map fun a => a.job.id).count id +
        ((q.done.filterMap DoneMsg.job).map Job.id).count id) := by
  simp only [heldIds, heldJobs, inFlightJobs, List.map_append, List.map_map, List.count_append]
  rfl

theorem openIds_count (q : AccountQueue) (id : String) : (q.openJobs.map Job.id).count id =
    (q.queue.map Job.id).count id + (q.waiting.map fun w => w.job.id).count id +
      (((q.running.filterMap Attempt.openJob).map Job.id).count id +
        ((q.done.filterMap DoneMsg.openJob).map Job.id).count id) := by
  simp only [openJobs, List.map_append, List.map_map, List.count_append]
  rfl

theorem running_count (l : List Attempt) (id : String) :
    ((l.filterMap Attempt.openJob).map Job.id).count id +
      ((l.filterMap Attempt.closedJob).map Job.id).count id =
      (l.map fun a => a.job.id).count id := by
  induction l with
  | nil => rfl
  | cons a l ih =>
    obtain ⟨job, outcome⟩ := a
    cases outcome with
    | none => simp [Attempt.openJob, Attempt.closedJob, List.count_cons] at ih ⊢; omega
    | some o =>
      cases ho : o.retry <;>
        simp [Attempt.openJob, Attempt.closedJob, List.count_cons, ho] at ih ⊢ <;> omega

theorem done_count (l : List DoneMsg) (id : String) :
    ((l.filterMap DoneMsg.openJob).map Job.id).count id +
      ((l.filterMap DoneMsg.closedJob).map Job.id).count id =
      ((l.filterMap DoneMsg.job).map Job.id).count id := by
  induction l with
  | nil => rfl
  | cons m l ih =>
    cases m with
    | throttle => exact ih
    | attempt job o =>
      cases ho : o.retry <;>
        simp [DoneMsg.openJob, DoneMsg.closedJob, DoneMsg.job, List.count_cons, ho]
          at ih ⊢ <;> omega

theorem openIds_count_add_closed (q : AccountQueue) (id : String) :
    (q.openJobs.map Job.id).count id + (q.closedJobs.map Job.id).count id = q.heldIds.count id := by
  have hr := running_count q.running id
  have hd := done_count q.done id
  rw [heldIds_count, openIds_count, closedJobs, List.map_append, List.count_append]
  omega

@[simp] theorem settle_heldIds : (q.settle id).heldIds = q.heldIds := rfl
@[simp] theorem settle_openJobs : (q.settle id).openJobs = q.openJobs := rfl
@[simp] theorem settle_present : (q.settle id).present = q.present.erase id := rfl
@[simp] theorem settle_log :
    (q.settle id).log = .jobDone id :: .served id :: .released id :: q.log := rfl

@[simp] theorem writeTerminal_heldIds :
    (q.writeTerminal id status reason now).heldIds = q.heldIds := rfl
@[simp] theorem writeTerminal_openJobs :
    (q.writeTerminal id status reason now).openJobs = q.openJobs := rfl
@[simp] theorem writeTerminal_present :
    (q.writeTerminal id status reason now).present = q.present := rfl
@[simp] theorem writeTerminal_log :
    (q.writeTerminal id status reason now).log = .terminal id status reason :: q.log := rfl

theorem balanced_new (store : Store) : Balanced (new c store) id := by
  constructor <;> simp [new, heldIds, heldJobs, inFlightJobs, openJobs]

/-- Jobs moved about, nothing noted that the books are made of. -/
theorem Balanced.move (h : Balanced q id) (hp : t.present = q.present)
    (hheld : t.heldIds.count id = q.heldIds.count id)
    (hopen : (t.openJobs.map Job.id).count id = (q.openJobs.map Job.id).count id)
    (hlog : t.log = q.log ∨ ∃ n : Note, n.aside = true ∧ t.log = n :: q.log) :
    Balanced t id := by
  obtain ⟨ho, hr, hs, hj, he⟩ := h
  rcases hlog with hlog | ⟨n, hn, hlog⟩
  · constructor <;> simp_all
  · cases n <;> simp only [Note.aside, Bool.false_eq_true] at hn <;>
      constructor <;> simp_all [Note.accepts, Note.ends]

theorem not_mem_present_of_accept {clock : Time} (h : q.acceptHandoff c job now clock = true) :
    job.id ∉ q.present := by
  intro hp
  simp [acceptHandoff, hp] at h

theorem Balanced.hold (h : Balanced q id) (hj : job.id ∉ q.present) :
    Balanced (q.hold job) id := by
  obtain ⟨d, hd⟩ := hold_eq q job
  rw [hd]
  obtain ⟨ho, hr, hs, hj', he⟩ := h
  by_cases hid : job.id = id
  · subst hid
    constructor <;> simp_all [heldIds_count, openIds_count, Note.accepts, Note.ends]
    all_goals omega
  · have hid' : id ≠ job.id := fun h => hid h.symm
    constructor <;> simp_all [heldIds_count, openIds_count, Note.accepts, Note.ends]

/-- The job's one copy leaves memory: one call of each kind. -/
theorem Balanced.settle (h : Balanced q id)
    (hheld : q.heldIds.count id = t.heldIds.count id + if job.id = id then 1 else 0)
    (hopen : (t.openJobs.map Job.id).count id = (q.openJobs.map Job.id).count id)
    (hp : t.present = q.present) (hlog : t.log = q.log) : Balanced (t.settle job.id) id := by
  obtain ⟨ho, hr, hs, hj, he⟩ := h
  rw [hheld] at ho hr hs hj
  by_cases hid : job.id = id
  · subst hid
    rw [if_pos rfl] at ho hr hs hj
    have hzero : t.heldIds.count job.id = 0 := by
      split at ho <;> omega
    constructor <;> simp [Note.accepts, Note.ends, hlog, hp, hopen, hzero] <;> omega
  · have hid' : id ≠ job.id := fun h => hid h.symm
    rw [if_neg hid, Nat.add_zero] at ho hr hs hj
    constructor <;> simp [Note.accepts, Note.ends, hlog, hp, hid, hid', hopen] <;> assumption

/-- A terminal status is written for an open job. -/
theorem Balanced.writeTerminal (h : Balanced q id) (hst : status.pending = false)
    (hheld : t.heldIds.count id = q.heldIds.count id)
    (hopen : (q.openJobs.map Job.id).count id =
      (t.openJobs.map Job.id).count id + if job.id = id then 1 else 0)
    (hp : t.present = q.present) (hlog : t.log = q.log) :
    Balanced (t.writeTerminal job.id status reason now) id := by
  obtain ⟨ho, hr, hs, hj, he⟩ := h
  rw [hopen] at he
  by_cases hid : job.id = id
  · subst hid
    rw [if_pos rfl] at he
    constructor <;> simp [Note.accepts, Note.ends, hlog, hp, hheld, hst] <;> omega
  · rw [if_neg hid, Nat.add_zero] at he
    constructor <;> simp [Note.accepts, Note.ends, hlog, hp, hid, hheld] <;> assumption

/-- A job that is not in flight is failed and let go of. -/
theorem Balanced.failHeld (h : Balanced q id)
    (hheld : q.heldIds.count id = t.heldIds.count id + if job.id = id then 1 else 0)
    (hopen : (q.openJobs.map Job.id).count id =
      (t.openJobs.map Job.id).count id + if job.id = id then 1 else 0)
    (hp : t.present = q.present) (hlog : t.log = q.log) :
    Balanced (t.failHeld job.id reason now) id := by
  obtain ⟨ho, hr, hs, hj, he⟩ := h
  rw [hheld] at ho hr hs hj
  rw [hopen] at he
  unfold AccountQueue.failHeld
  by_cases hid : job.id = id
  · subst hid
    rw [if_pos rfl] at ho hr hs hj he
    have hzero : t.heldIds.count job.id = 0 := by
      split at ho <;> omega
    constructor <;> simp [Note.accepts, Note.ends, Status.pending, hlog, hp, hzero] <;> omega
  · have hid' : id ≠ job.id := fun h => hid h.symm
    rw [if_neg hid, Nat.add_zero] at ho hr hs hj he
    constructor <;> simp [Note.accepts, Note.ends, hlog, hp, hid, hid'] <;> assumption

theorem Balanced.failQueued {a b : List Job} (h : Balanced { q with queue := a ++ job :: b } id) :
    Balanced ({ q with queue := a ++ b }.failHeld job.id reason now) id := by
  refine h.failHeld ?_ ?_ rfl rfl <;>
    simp only [heldIds_count, openIds_count, List.map_append, List.map_cons, List.count_append,
      List.count_cons, beq_iff_eq] <;> omega

theorem Balanced.failWaiting {a b : List WaitingJob} {w : WaitingJob}
    (h : Balanced { q with waiting := a ++ w :: b } id) :
    Balanced ({ q with waiting := a ++ b }.failHeld w.job.id reason now) id := by
  refine h.failHeld ?_ ?_ rfl rfl <;>
    simp only [heldIds_count, openIds_count, List.map_append, List.map_cons, List.count_append,
      List.count_cons, beq_iff_eq] <;> omega

theorem Balanced.retryMove {a b : List WaitingJob} {w : WaitingJob}
    (h : Balanced { q with waiting := a ++ w :: b } id) :
    Balanced { q with waiting := a ++ b, queue := q.queue ++ [w.job] } id := by
  refine h.move rfl ?_ ?_ (.inl rfl) <;>
    simp only [heldIds_count, openIds_count, List.map_append, List.map_cons, List.map_nil,
      List.count_append, List.count_cons, List.count_nil, beq_iff_eq] <;> omega

theorem Balanced.dispatch {rest : List Job} (h : Balanced q id) (hq : q.queue = job :: rest) :
    Balanced { q with
      queue := rest
      inFlight := q.inFlight + 1
      running := q.running ++ [{ job }]
      log := .dispatched job now :: q.log } id := by
  refine h.move rfl ?_ ?_ (.inr ⟨.dispatched job now, rfl, rfl⟩)
  · simp only [heldIds_count, hq, List.map_append, List.map_cons, List.map_nil, List.count_append,
      List.count_cons, List.count_nil, beq_iff_eq]
    omega
  · simp only [openIds_count, hq, List.filterMap_append, List.filterMap_cons, List.filterMap_nil,
      Attempt.openJob, Option.all_none, if_true, List.map_append, List.map_cons, List.map_nil,
      List.count_append, List.count_cons, List.count_nil, beq_iff_eq]
    omega

theorem Balanced.report {a b : List Attempt} {o : Outcome} (h : Balanced q id)
    (hq : q.running = a ++ ⟨job, some o⟩ :: b) :
    Balanced { q with running := a ++ b, done := q.done ++ [.attempt job o] } id := by
  refine h.move rfl ?_ ?_ (.inl rfl)
  · simp only [heldIds_count, hq, List.map_append, List.map_cons, List.map_nil, List.count_append,
      List.filterMap_append, List.filterMap_cons, List.filterMap_nil, DoneMsg.job,
      List.count_cons, List.count_nil, beq_iff_eq]
    omega
  · cases hr : o.retry.isSome <;>
      simp [openIds_count, hq, Attempt.openJob, DoneMsg.openJob, hr, List.count_append,
        List.count_cons]
    omega

theorem Balanced.execute {a b : List Attempt} {x : Exchange} (h : Balanced q id)
    (hq : q.running = a ++ ⟨job, none⟩ :: b) (hx : x.response ≠ .cancelled) :
    Balanced { q.applyEffect job.id x.now (Aquifer.execute job x).1 with
      running := a ++ ⟨(Aquifer.execute job x).2.1, some (Aquifer.execute job x).2.2⟩ :: b }
        id := by
  rcases execute_cases job x with
    ⟨status, reason, hst, he, hj, hr⟩ | ⟨time, reason, -, he, hj, hr⟩ | ⟨hc, -⟩
  · rw [he, hj]
    refine h.writeTerminal
      (t := { q with running := a ++ ⟨job, some (Aquifer.execute job x).2.2⟩ :: b })
        hst ?_ ?_ rfl rfl
    · simp [heldIds_count, hq, List.count_append, List.count_cons]
    · simp [openIds_count, hq, Attempt.openJob, hr, List.count_append, List.count_cons]
      omega
  · rw [he, hj]
    refine h.move rfl ?_ ?_ (.inl rfl)
    · simp [heldIds_count, hq, applyEffect, List.count_append, List.count_cons]
    · simp [openIds_count, hq, applyEffect, Attempt.openJob, hr, List.count_append, List.count_cons]
  · exact absurd hc hx

theorem Balanced.endAttempt {rest : List DoneMsg} {o : Outcome} (h : Balanced q id)
    (hq : q.done = .attempt job o :: rest) :
    Balanced (AccountQueue.endAttempt { q with done := rest } job o) id := by
  unfold AccountQueue.endAttempt
  split
  · next time reason hr =>
    refine h.move rfl ?_ ?_ (.inl rfl)
    · simp [heldIds_count, hq, DoneMsg.job, List.count_append, List.count_cons]
      omega
    · simp [openIds_count, hq, DoneMsg.openJob, hr, List.count_append, List.count_cons]
      omega
  · next hr =>
    refine h.settle (t := { q with done := rest, inFlight := q.inFlight - 1 }) ?_ ?_ rfl rfl
    · simp [heldIds_count, hq, DoneMsg.job, List.count_cons]
      omega
    · simp [openIds_count, hq, DoneMsg.openJob, hr]

theorem Balanced.mem_present_iff (h : Balanced q id) : id ∈ q.present ↔ id ∈ q.heldIds := by
  have hcount := h.once
  rw [← List.count_pos_iff]
  split at hcount <;> simp_all

end AccountQueue

end Aquifer
