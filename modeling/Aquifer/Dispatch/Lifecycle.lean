import Aquifer.Dispatch.Books

/-! A job's life in a queue: held in one place, sent in time, retried in bounds, ended once. -/
namespace Aquifer

/-- The job of an attempt still under way, and of one whose job will be retried. -/
def Attempt.underway (a : Attempt) : Option Job := if a.outcome.isNone then some a.job else none

def Attempt.resting (a : Attempt) : Option Job :=
  if a.outcome.any (·.retry.isSome) then some a.job else none

/-- Neither an acceptance nor a dispatch. -/
def Note.plain : Note → Bool
  | .accepted _ | .dispatched _ _ => false
  | _ => true

/-- How often the job was dispatched since it was last taken into memory. -/
def tries (id : String) : List Note → Nat
  | [] => 0
  | .accepted job :: log => if job.id = id then 0 else tries id log
  | .dispatched job _ :: log => tries id log + if job.id = id then 1 else 0
  | _ :: log => tries id log

/-- The job as it was last taken into memory. -/
def acceptedAs (id : String) : List Note → Option Job
  | [] => none
  | .accepted job :: log => if job.id = id then some job else acceptedAs id log
  | _ :: log => acceptedAs id log

namespace AccountQueue

variable {c : QueueConfig} {q t : AccountQueue} {e : Event} {id : String} {job : Job} {now : Time}
  {reason : String} {w : WaitingJob}

/-- The open jobs between two attempts, and those with an attempt under way. -/
def resting (q : AccountQueue) : List Job :=
  q.queue ++ q.waiting.map WaitingJob.job ++
    (q.running.filterMap Attempt.resting ++ q.done.filterMap DoneMsg.openJob)

def underway (q : AccountQueue) : List Job := q.running.filterMap Attempt.underway

/-- A job that rests between attempts has used up what its attempt count says; one under way has
used up one more. -/
structure InBounds (q : AccountQueue) (id : String) : Prop where
  punctual : ∀ job now, .dispatched job now ∈ q.log → job.queueExpired now = false
  limit : ∀ a, acceptedAs id q.log = some a → 0 ≤ a.maxRetries →
    tries id q.log ≤ (a.maxRetries - a.attempts).toNat + 1
  rested : ∀ a, acceptedAs id q.log = some a → 0 ≤ a.maxRetries → ∀ job ∈ q.resting,
    job.id = id → job.maxRetries = a.maxRetries ∧ job.attempts ≤ max a.maxRetries a.attempts ∧
      (tries id q.log : Int) = job.attempts - a.attempts
  begun : ∀ a, acceptedAs id q.log = some a → 0 ≤ a.maxRetries → ∀ job ∈ q.underway,
    job.id = id → job.maxRetries = a.maxRetries ∧ job.attempts ≤ max a.maxRetries a.attempts ∧
      (tries id q.log : Int) = job.attempts - a.attempts + 1

theorem inBounds_new (store : Store) : InBounds (new c store) id := by
  constructor <;> simp [new, acceptedAs]

theorem tries_append {ns log : List Note} (h : ∀ n ∈ ns, n.plain = true) :
    tries id (ns ++ log) = tries id log := by
  induction ns with
  | nil => rfl
  | cons n ns ih =>
    have hn := h n List.mem_cons_self
    have ih' := ih fun m hm => h m (List.mem_cons_of_mem n hm)
    cases n <;> simp_all [tries, Note.plain]

theorem acceptedAs_append {ns log : List Note} (h : ∀ n ∈ ns, n.plain = true) :
    acceptedAs id (ns ++ log) = acceptedAs id log := by
  induction ns with
  | nil => rfl
  | cons n ns ih =>
    have hn := h n List.mem_cons_self
    have ih' := ih fun m hm => h m (List.mem_cons_of_mem n hm)
    cases n <;> simp_all [acceptedAs, Note.plain]

/-- Copies go away or change places, nothing is taken in or dispatched. -/
theorem InBounds.shrink (h : InBounds q id) (ns : List Note) (hns : ∀ n ∈ ns, n.plain = true)
    (hlog : t.log = ns ++ q.log) (hr : ∀ j ∈ t.resting, j ∈ q.resting)
    (hu : ∀ j ∈ t.underway, j ∈ q.underway) : InBounds t id := by
  have ht : tries id t.log = tries id q.log := by rw [hlog, tries_append hns]
  have ha : acceptedAs id t.log = acceptedAs id q.log := by rw [hlog, acceptedAs_append hns]
  refine ⟨?_, ?_, ?_, ?_⟩
  · intro job now hmem
    rw [hlog, List.mem_append] at hmem
    rcases hmem with hmem | hmem
    · exact absurd (hns _ hmem) (by simp [Note.plain])
    · exact h.punctual job now hmem
  · rw [ht, ha]
    exact h.limit
  · rw [ht, ha]
    exact fun a hacc hn job hj => h.rested a hacc hn job (hr job hj)
  · rw [ht, ha]
    exact fun a hacc hn job hj => h.begun a hacc hn job (hu job hj)

theorem id_mem_heldIds_of_resting (h : job ∈ q.resting) : job.id ∈ q.heldIds := by
  refine List.mem_map_of_mem ?_
  simp only [resting, heldJobs, inFlightJobs, List.mem_append, List.mem_filterMap] at h ⊢
  rcases h with h | ⟨a, ha, hj⟩ | ⟨m, hm, hj⟩
  · exact .inl h
  · refine .inr (.inl (List.mem_map.mpr ⟨a, ha, ?_⟩))
    simp only [Attempt.resting, Option.ite_none_right_eq_some, Option.some.injEq] at hj
    exact hj.2
  · refine .inr (.inr ⟨m, hm, ?_⟩)
    cases m with
    | throttle => cases hj
    | attempt j o =>
      simp only [DoneMsg.openJob, Option.ite_none_right_eq_some] at hj
      exact hj.2

theorem id_mem_heldIds_of_underway (h : job ∈ q.underway) : job.id ∈ q.heldIds := by
  refine List.mem_map_of_mem ?_
  simp only [underway, heldJobs, inFlightJobs, List.mem_append, List.mem_filterMap] at h ⊢
  obtain ⟨a, ha, hj⟩ := h
  refine .inr (.inl (List.mem_map.mpr ⟨a, ha, ?_⟩))
  simp only [Attempt.underway, Option.ite_none_right_eq_some, Option.some.injEq] at hj
  exact hj.2

theorem InBounds.hold (h : InBounds q id) (hb : Balanced q job.id) (hj : job.id ∉ q.present) :
    InBounds (q.hold job) id := by
  obtain ⟨d, hd⟩ := hold_eq q job
  rw [hd]
  have hfree : job.id ∉ q.heldIds := fun hm => hj (hb.mem_present_iff.mpr hm)
  have hrest : ∀ j ∈ ({ q with
      present := insert job.id q.present, queue := q.queue ++ [job],
      log := .accepted job :: q.log, nextDeadline := d } : AccountQueue).resting,
      j = job ∨ j ∈ q.resting := by
    intro j
    simp only [resting, List.mem_append, List.mem_singleton]
    tauto
  refine ⟨?_, ?_, ?_, ?_⟩
  · intro j now hmem
    rcases List.mem_cons.mp hmem with hmem | hmem
    · cases hmem
    · exact h.punctual j now hmem
  all_goals
    dsimp only [acceptedAs, tries]
    by_cases hid : job.id = id
  · simp [hid]
  · rw [if_neg hid, if_neg hid]
    exact h.limit
  · simp only [hid, if_true, Option.some.injEq]
    rintro a rfl hn j hjm hjid
    rcases hrest j hjm with rfl | hjm
    · exact ⟨rfl, le_max_right _ _, by simp⟩
    · exact absurd (id_mem_heldIds_of_resting hjm) (by rwa [hjid, ← hid])
  · simp only [hid, if_false]
    intro a hacc hn j hjm hjid
    rcases hrest j hjm with rfl | hjm
    · exact absurd hjid hid
    · exact h.rested a hacc hn j hjm hjid
  · simp only [hid, if_true, Option.some.injEq]
    rintro a rfl hn j hjm hjid
    exact absurd (id_mem_heldIds_of_underway (q := q) hjm) (by rwa [hjid, ← hid])
  · simp only [hid, if_false]
    exact fun a hacc hn j hjm => h.begun a hacc hn j hjm

theorem InBounds.dispatch {rest : List Job} (h : InBounds q id) (hb : Balanced q job.id)
    (hq : q.queue = job :: rest) (hexp : job.queueExpired now = false) :
    InBounds { q with
      queue := rest
      inFlight := q.inFlight + 1
      running := q.running ++ [{ job }]
      log := .dispatched job now :: q.log } id := by
  have hresting : job ∈ q.resting := List.mem_append_left _ (by simp [hq])
  -- The job leaves the queue and is held once, so no other copy of it is left.
  have hone : job.id ∉ { q with queue := rest }.heldIds := by
    have hc := hb.once
    rw [← List.count_eq_zero]
    simp only [heldIds_count, hq, List.map_cons, List.count_cons_self] at hc ⊢
    split at hc <;> omega
  have hrest : ∀ j ∈ { q with queue := rest }.resting, j ∈ q.resting ∧ j.id ≠ job.id := by
    intro j hj
    refine ⟨?_, fun he => hone (he ▸ id_mem_heldIds_of_resting hj)⟩
    simp only [resting, hq, List.mem_append, List.mem_cons] at hj ⊢
    tauto
  have hund : ∀ j ∈ ({ q with running := q.running ++ [{ job }] } : AccountQueue).underway,
      j = job ∨ j ∈ q.underway ∧ j.id ≠ job.id := by
    intro j hj
    rw [underway, List.filterMap_append, List.mem_append] at hj
    rcases hj with hj | hj
    · have hm : j ∈ { q with queue := rest }.underway := hj
      exact .inr ⟨hj, fun he => hone (he ▸ id_mem_heldIds_of_underway hm)⟩
    · exact .inl (by simpa [Attempt.underway, List.filterMap_cons] using hj)
  refine ⟨?_, ?_, ?_, ?_⟩
  · intro j w hmem
    rcases List.mem_cons.mp hmem with hmem | hmem
    · cases hmem
      exact hexp
    · exact h.punctual j w hmem
  all_goals dsimp only [acceptedAs, tries]
  · intro a hacc hn
    by_cases hid : job.id = id
    · obtain ⟨-, hle, htr⟩ := h.rested a hacc hn job hresting hid
      rw [if_pos hid]
      omega
    · rw [if_neg hid]
      exact h.limit a hacc hn
  · intro a hacc hn j hjm hjid
    have hjm' : j ∈ { q with queue := rest }.resting := by
      simpa [resting, List.filterMap_cons, Attempt.resting] using hjm
    obtain ⟨hjm, hne⟩ := hrest j hjm'
    rw [if_neg (fun he => hne (hjid.trans he.symm)), Nat.add_zero]
    exact h.rested a hacc hn j hjm hjid
  · intro a hacc hn j hjm hjid
    rcases hund j hjm with rfl | ⟨hjm, hne⟩
    · obtain ⟨hm, hle, htr⟩ := h.rested a hacc hn j hresting hjid
      refine ⟨hm, hle, ?_⟩
      rw [if_pos hjid]
      push_cast
      omega
    · rw [if_neg (fun he => hne (hjid.trans he.symm)), Nat.add_zero]
      exact h.begun a hacc hn j hjm hjid

theorem InBounds.execute {a b : List Attempt} {x : Exchange} (h : InBounds q id)
    (hq : q.running = a ++ ⟨job, none⟩ :: b)
    (hx : x.response ≠ .cancelled) :
    InBounds { q.applyEffect job.id x.now (Aquifer.execute job x).1 with
      running := a ++ ⟨(Aquifer.execute job x).2.1, some (Aquifer.execute job x).2.2⟩ :: b }
        id := by
  have hunder : job ∈ q.underway := by
    simp [underway, hq, Attempt.underway]
  -- An attempt that is over is no longer under way.
  have hund (x : Attempt) (hx : x.outcome.isSome = true) :
      ∀ j ∈ { q with running := a ++ x :: b }.underway,
        j ∈ { q with running := a ++ b }.underway := by
    intro j hj
    rw [Option.isSome_iff_exists] at hx
    obtain ⟨o, ho⟩ := hx
    simpa [underway, Attempt.underway, ho] using hj
  have hsub : ∀ j ∈ { q with running := a ++ b }.underway, j ∈ q.underway := by
    intro j hj
    simp only [underway, hq, List.filterMap_append, List.filterMap_cons, List.mem_append] at hj ⊢
    simp only [Attempt.underway, Option.isNone_none, if_true, List.mem_cons]
    tauto
  rcases execute_cases job x with ⟨status, reason, -, he, hj, hr⟩ |
    ⟨time, reason, hleft, he, hj, hr⟩ | ⟨hc, -⟩
  · rw [he, hj]
    refine h.shrink [.terminal job.id status reason] (by simp [Note.plain]) rfl ?_ ?_
    · intro j hjm
      simpa [resting, hq, Attempt.resting, hr, applyEffect, AccountQueue.writeTerminal] using hjm
    · exact fun j hjm => hsub j (hund _ rfl j hjm)
  · rw [he, hj]
    refine ⟨h.punctual, h.limit, ?_, ?_⟩
    · intro ac hacc hn j hjm hjid
      have hcase : j = { job with attempts := job.attempts + 1 } ∨
          j ∈ { q with running := a ++ b }.resting := by
        simp only [resting, applyEffect, List.filterMap_append, List.filterMap_cons,
          List.mem_append,
          Attempt.resting, hr, Option.any_some, Option.isSome_some, if_true, List.mem_cons] at hjm ⊢
        tauto
      rcases hcase with rfl | hjm
      · obtain ⟨hm, hle, htr⟩ := h.begun ac hacc hn job hunder hjid
        refine ⟨hm, ?_, ?_⟩
        · rw [Job.hasRetriesLeft_iff] at hleft
          change job.attempts + 1 ≤ max ac.maxRetries ac.attempts
          omega
        · change (tries id q.log : Int) = job.attempts + 1 - ac.attempts
          omega
      · refine h.rested ac hacc hn j ?_ hjid
        simpa [resting, hq, Attempt.resting] using hjm
    · exact fun ac hacc hn j hjm => h.begun ac hacc hn j (hsub j (hund _ rfl j hjm))
  · exact absurd hc hx

theorem InBounds.failHeld (h : InBounds q id) (hlog : t.log = q.log)
    (hr : ∀ j ∈ t.resting, j ∈ q.resting) (hu : t.underway = q.underway) :
    InBounds (t.failHeld job.id reason now) id :=
  h.shrink [.terminal job.id .failed reason, .jobDone job.id, .served job.id, .released job.id]
    (by simp [Note.plain]) (by rw [← hlog]; rfl) hr (fun j hj => hu ▸ hj)

theorem InBounds.failQueued {a b : List Job} (h : InBounds { q with queue := a ++ job :: b } id) :
    InBounds ({ q with queue := a ++ b }.failHeld job.id reason now) id := by
  refine h.failHeld rfl (fun j hj => ?_) rfl
  simp only [resting, List.mem_append, List.mem_cons] at hj ⊢
  tauto

theorem InBounds.failWaiting {a b : List WaitingJob}
    (h : InBounds { q with waiting := a ++ w :: b } id) :
    InBounds ({ q with waiting := a ++ b }.failHeld w.job.id reason now) id := by
  refine h.failHeld rfl (fun j hj => ?_) rfl
  simp only [resting, List.map_append, List.map_cons, List.mem_append, List.mem_cons] at hj ⊢
  tauto

theorem InBounds.retryMove {a b : List WaitingJob}
    (h : InBounds { q with waiting := a ++ w :: b } id) :
    InBounds { q with waiting := a ++ b, queue := q.queue ++ [w.job] } id := by
  refine h.shrink [] (by simp) rfl (fun j hj => ?_) (fun j hj => hj)
  simp only [resting, List.map_append, List.map_cons, List.mem_append, List.mem_cons,
    List.not_mem_nil, or_false] at hj ⊢
  tauto

theorem InBounds.report {a b : List Attempt} {o : Outcome} (h : InBounds q id)
    (hq : q.running = a ++ ⟨job, some o⟩ :: b) :
    InBounds { q with running := a ++ b, done := q.done ++ [.attempt job o] } id := by
  refine h.shrink [] (by simp) rfl (fun j hj => ?_) (fun j hj => ?_)
  · cases hr : o.retry.isSome <;>
      simp only [resting, hq, List.filterMap_append, List.filterMap_cons, List.filterMap_nil,
        Attempt.resting, DoneMsg.openJob, hr, Option.any_some, Bool.false_eq_true, if_false,
        if_true, List.mem_append, List.mem_cons, List.not_mem_nil, or_false] at hj ⊢ <;> tauto
  · simpa [underway, hq, Attempt.underway] using hj

theorem InBounds.endAttempt {rest : List DoneMsg} {o : Outcome} (h : InBounds q id)
    (hq : q.done = .attempt job o :: rest) :
    InBounds (AccountQueue.endAttempt { q with done := rest } job o) id := by
  unfold AccountQueue.endAttempt
  split
  · next time reason hr =>
    refine h.shrink [] (by simp) rfl (fun j hj => ?_) (fun j hj => hj)
    simp only [resting, hq, List.filterMap_cons, DoneMsg.openJob, hr, Option.isSome_some, if_true,
      List.map_append, List.map_cons, List.map_nil, List.mem_append, List.mem_cons,
      List.not_mem_nil, or_false] at hj ⊢
    tauto
  · next hr =>
    refine h.shrink [.jobDone job.id, .served job.id, .released job.id] (by simp [Note.plain]) rfl
      (fun j hj => ?_) (fun j hj => hj)
    simp [resting, hq, DoneMsg.openJob, hr, AccountQueue.settle] at hj ⊢
    tauto

/-! ### Every step keeps the books and the bounds -/

/-- What the books and the bounds are about; the rest of the queue does not touch them. -/
structure Memory where
  queue : List Job
  waiting : List WaitingJob
  running : List Attempt
  done : List DoneMsg
  present : Finset String
  log : List Note
  stopping : Bool

def memory (q : AccountQueue) : Memory :=
  ⟨q.queue, q.waiting, q.running, q.done, q.present, q.log, q.stopping⟩

/-- The queue was not stopped, its books are in order and every job is within bounds. -/
structure Orderly (q : AccountQueue) : Prop where
  unstopped : q.stopping = false
  books : ∀ id, Balanced q id
  bounds : ∀ id, InBounds q id

theorem orderly_new (store : Store) : Orderly (new c store) :=
  ⟨rfl, fun _ => balanced_new store, fun _ => inBounds_new store⟩

theorem Orderly.same (h : Orderly q) (hm : t.memory = q.memory) : Orderly t := by
  simp only [memory, Memory.mk.injEq] at hm
  obtain ⟨hq, hw, hr, hd, hp, hl, hs⟩ := hm
  have hheld : t.heldIds = q.heldIds := by
    simp only [heldIds, heldJobs, inFlightJobs, hq, hw, hr, hd]
  have hopen : t.openJobs = q.openJobs := by simp only [openJobs, hq, hw, hr, hd]
  have hrest : t.resting = q.resting := by simp only [resting, hq, hw, hr, hd]
  have hund : t.underway = q.underway := by simp only [underway, hr]
  refine ⟨hs.trans h.unstopped, fun id => ?_, fun id => ?_⟩
  · exact (h.books id).move hp (by rw [hheld]) (by rw [hopen]) (.inl hl)
  · exact (h.bounds id).shrink [] (by simp) hl (by simp [hrest]) (by simp [hund])

theorem Orderly.hold (h : Orderly q) (hj : job.id ∉ q.present) : Orderly (q.hold job) := by
  refine ⟨?_, fun id => (h.books id).hold hj, fun id => (h.bounds id).hold (h.books job.id) hj⟩
  obtain ⟨d, hd⟩ := hold_eq q job
  rw [hd]
  exact h.unstopped

theorem Orderly.failQueued {a b : List Job} (h : Orderly { q with queue := a ++ job :: b }) :
    Orderly ({ q with queue := a ++ b }.failHeld job.id reason now) :=
  ⟨h.unstopped, fun id => (h.books id).failQueued, fun id => (h.bounds id).failQueued⟩

theorem Orderly.failWaiting {a b : List WaitingJob}
    (h : Orderly { q with waiting := a ++ w :: b }) :
    Orderly ({ q with waiting := a ++ b }.failHeld w.job.id reason now) :=
  ⟨h.unstopped, fun id => (h.books id).failWaiting, fun id => (h.bounds id).failWaiting⟩

theorem Orderly.retryMove {a b : List WaitingJob} (h : Orderly { q with waiting := a ++ w :: b }) :
    Orderly { q with waiting := a ++ b, queue := q.queue ++ [w.job] } :=
  ⟨h.unstopped, fun id => (h.books id).retryMove, fun id => (h.bounds id).retryMove⟩

theorem Orderly.consume {i : Nat} (h : Orderly q) : Orderly (q.consume i job) := by
  unfold AccountQueue.consume
  split <;> exact h.same rfl

theorem Orderly.loadNext (h : Orderly q) : Orderly (q.loadNext job) := by
  unfold AccountQueue.loadNext loadJob
  split
  · split
    · exact h.consume.same rfl
    · exact h.same rfl
  · next hp =>
    have hpc : (q.consume 0 job).present = q.present := by
      unfold AccountQueue.consume
      split <;> rfl
    exact (h.consume.hold (hpc ▸ hp)).same rfl

theorem Orderly.finishSpill (h : Orderly q) : Orderly q.finishSpill := by
  unfold AccountQueue.finishSpill
  split
  · exact h
  · exact h.same rfl

theorem Orderly.sweepJob {i : Nat} (h : Orderly q) : Orderly (q.sweepJob i now job) := by
  unfold AccountQueue.sweepJob
  split
  · exact h
  · have hc : Orderly (q.consume i job) := h.consume
    refine ⟨hc.unstopped, fun id => ?_, fun id => ?_⟩
    · exact (hc.books id).move rfl rfl rfl (.inr ⟨.swept job.id, rfl, rfl⟩)
    · exact (hc.bounds id).shrink [.swept job.id] (by simp [Note.plain]) rfl
        (fun j hj => hj) (fun j hj => hj)

theorem Orderly.recvReport {rest : List DoneMsg} {o : Outcome} (h : Orderly q)
    (hq : q.done = .attempt job o :: rest) :
    Orderly (AccountQueue.recvReport c { q with done := rest } job o now) := by
  have he : Orderly (AccountQueue.endAttempt { q with done := rest } job o) := by
    refine ⟨?_, fun id => (h.books id).endAttempt hq, fun id => (h.bounds id).endAttempt hq⟩
    unfold AccountQueue.endAttempt
    split <;> exact h.unstopped
  have hh : Orderly ((AccountQueue.endAttempt { q with done := rest } job o).hear o now) := by
    unfold hear
    split
    · exact he.same rfl
    · split
      · exact he.same rfl
      · exact he
  unfold AccountQueue.recvReport setMaxConc
  split
  · split
    · exact hh.same rfl
    · exact hh
  · exact hh

/-- A message that carries no job comes or goes. -/
theorem Orderly.message {done : List DoneMsg} (h : Orderly q)
    (hjobs : done.filterMap DoneMsg.job = q.done.filterMap DoneMsg.job)
    (hopen : done.filterMap DoneMsg.openJob = q.done.filterMap DoneMsg.openJob) :
    Orderly { q with done } := by
  refine ⟨h.unstopped, fun id => ?_, fun id => ?_⟩
  · refine (h.books id).move rfl ?_ ?_ (.inl rfl)
    · simp [heldIds_count, hjobs]
    · simp [openIds_count, hopen]
  · refine (h.bounds id).shrink [] (by simp) rfl (fun j hj => ?_) (fun j hj => hj)
    simpa [resting, hopen] using hj

theorem orderly_step (h : Orderly q) (he : e.calm = true) (hstep : q.step c e = some t) :
    Orderly t := by
  have hspec := step_spec hstep
  cases e <;> simp only [StepSpec] at hspec
  case reserve | attachSpill | external | refillFail =>
    subst hspec
    exact h.same rfl
  case setKey | send | takeSpills =>
    obtain ⟨-, rfl⟩ := hspec
    exact h.same rfl
  case throttle =>
    rcases hspec with rfl | rfl
    · exact h.message (by simp [List.filterMap_cons, DoneMsg.job])
        (by simp [List.filterMap_cons, DoneMsg.openJob])
    · exact h
  case execute i x =>
    obtain ⟨job, a, b, hq, hx, rfl⟩ := hspec
    have hc : x.response ≠ .cancelled := fun hc => by
      have hs := h.unstopped
      simp [hx hc] at hs
    refine ⟨?_, fun id => (h.books id).execute hq hc, fun id => (h.bounds id).execute hq hc⟩
    cases (Aquifer.execute job x).1 <;> exact h.unstopped
  case report =>
    obtain ⟨job, o, a, b, hq, rfl⟩ := hspec
    exact ⟨h.unstopped, fun id => (h.books id).report hq, fun id => (h.bounds id).report hq⟩
  case refillPage =>
    obtain ⟨-, -, rfl⟩ := hspec
    refine refillPage_induct (fun q u (hq : Orderly q) => hq.same rfl) ?_ ?_ h
    · intro q src rest r _ _ _ _ hq
      exact hq.loadNext
    · intro q src rest _ _ hq
      exact hq.finishSpill
  case dropExpiredJobs | dropExpiredWaiting | failDeadTarget | retryDue =>
    exact scan_induct (fun q d (hq : Orderly q) => hq.same rfl) (fun q now hq => hq.same rfl)
      (fun q a job b reason now hq => hq.failQueued) (fun q a w b reason now hq => hq.failWaiting)
      (fun q a w b hq => hq.retryMove) rfl hstep h
  case dispatch =>
    obtain ⟨job, rest, hq, -, hexp, rfl⟩ := hspec
    exact ⟨h.unstopped, fun id => (h.books id).dispatch hq,
      fun id => (h.bounds id).dispatch (h.books job.id) hq hexp⟩
  case recvCmd now clock =>
    obtain ⟨job, rest, -, ⟨ha, rfl⟩ | ⟨-, rfl⟩⟩ := hspec
    · exact Orderly.hold (h.same rfl) (not_mem_present_of_accept ha)
    · exact h.same rfl
  case recvDone =>
    rcases hspec with ⟨rest, hq, rfl⟩ | ⟨job, o, rest, hq, rfl⟩
    · exact h.message (by simp [hq, List.filterMap_cons, DoneMsg.job])
        (by simp [hq, List.filterMap_cons, DoneMsg.openJob])
    · exact h.recvReport hq
  case sweepStart =>
    rcases hspec with ⟨-, rfl | rfl⟩
    · exact h
    · exact h.same rfl
  case sweepPage =>
    obtain ⟨w, -, rfl⟩ := hspec
    refine sweepPage_induct (fun q s (hq : Orderly q) => hq.same rfl) ?_ h
    intro src₀ _ t src r _ _ _ _ _ _ _ _ _ ht
    exact ht.sweepJob
  case sweepFail =>
    obtain ⟨w, -, rfl⟩ := hspec
    exact h.same rfl
  case idle =>
    obtain ⟨-, -, -, -, rfl | rfl⟩ := hspec <;> exact h.same rfl
  case panic | stop => simp [Event.calm] at he
  case stopLoop | stopReport | stopHandoff =>
    rw [h.unstopped] at hspec
    exact absurd hspec.1 (by simp)

theorem orderly_run {store : Store} {es : List Event} (hes : ∀ e ∈ es, e.calm = true)
    (hrun : Trace.exec (step c) (new c store) es = some q) : Orderly q :=
  Trace.exec_invariant orderly_step (orderly_new store)
    (Trace.along_of_forall hes _) hrun

/-- Every job's life in a queue that neither panics nor is stopped. Each time it is taken into
memory it is held in exactly one place until it leaves, and by then one terminal status was written
for it and `releaseBacklog`, `markServed` and `onJobDone` were called once each. It is dispatched
only before its queue deadline, and no more often than its retries allow. -/
theorem job_lifecycle (c : QueueConfig) (store : Store) (es : List Event) (q : AccountQueue)
    (hes : ∀ e ∈ es, e.calm = true)
    (hrun : Trace.exec (step c) (new c store) es = some q) :
    (∀ id, q.heldIds.count id ≤ 1 ∧
      q.log.countP (Note.accepts id) = q.log.count (.jobDone id) + q.heldIds.count id ∧
      q.log.count (.released id) = q.log.count (.jobDone id) ∧
      q.log.count (.served id) = q.log.count (.jobDone id) ∧
      q.log.count (.jobDone id) ≤ q.log.countP (Note.ends id) ∧
      q.log.countP (Note.ends id) ≤ q.log.countP (Note.accepts id)) ∧
    (∀ job now, .dispatched job now ∈ q.log →
      job.queueDeadline ≤ 0 ∨ unixMilli now < job.queueDeadline) ∧
    (∀ id job, acceptedAs id q.log = some job → 0 ≤ job.maxRetries →
      tries id q.log ≤ (job.maxRetries - job.attempts).toNat + 1) := by
  have h := orderly_run hes hrun
  refine ⟨fun id => ?_, fun job now hmem => ?_, fun id => (h.bounds id).limit⟩
  · obtain ⟨ho, hr, hs, hj, he⟩ := h.books id
    have hsum := openIds_count_add_closed q id
    have hone : q.heldIds.count id ≤ 1 := by
      rw [ho]
      split <;> omega
    omega
  · exact (Job.queueExpired_eq_false_iff job now).mp ((h.bounds job.id).punctual job now hmem)

/-- A job's hand-off, dispatch and completion. -/
def oneJobRun : List Event :=
  [.reserve (smallJob 1), .setKey (smallJob 1), .send (smallJob 1), .recvCmd 0 0, .dispatch 0,
    .execute 0 success, .report 0, .recvDone 0]

theorem oneJobRun_isSome : (Trace.exec (step smallConfig)
    (new smallConfig (smallStore .queued)) oneJobRun).isSome = true := by
  decide +kernel

/-- On that run the job has been through the queue once. -/
theorem job_lifecycle_oneJobRun :
    ∃ q, Trace.exec (step smallConfig) (new smallConfig (smallStore .queued)) oneJobRun = some q ∧
      q.log.countP (Note.accepts "1") = 1 ∧ q.log.countP (Note.ends "1") = 1 ∧
      tries "1" q.log ≤ 5 := by
  have hrun := (Option.some_get oneJobRun_isSome).symm
  have hlife := job_lifecycle smallConfig (smallStore .queued) oneJobRun _ (by decide) hrun
  refine ⟨_, hrun, by decide +kernel, by decide +kernel, ?_⟩
  exact hlife.2.2 "1" (smallJob 1) (by decide +kernel) (by decide)

end AccountQueue

end Aquifer
