import Aquifer.Dispatch.UserLoad

/-! Which workers are left when an instance has nothing to do, and what the drain watchdog makes of
it. -/
namespace Aquifer

inductive DrainState
  | active
  | draining
  | unassigned
deriving DecidableEq, Repr

/-- What `drainWatchdogLoop` keeps between two ticks; times are in milliseconds. -/
structure Watchdog where
  state : DrainState := .active
  becameIdleAt : Option Int := none
  active_since : state = .active → becameIdleAt = none := by simp

/-- One tick: `idle` says that the registry has no workers, `flushed` that the ledger was delivered
or there was nothing to deliver. -/
def Watchdog.tick (timerSeconds : Int) (d : Watchdog) (idle flushed : Bool) (now : Int) :
    Watchdog :=
  if idle = false then {}
  else if d.state = .unassigned then d
  else
    match d.becameIdleAt with
    | none => { state := .draining, becameIdleAt := some now }
    | some since =>
      if now - since < timerSeconds * 1000 then d
      else if flushed then { state := .unassigned, becameIdleAt := some since }
      else d

theorem Watchdog.tick_busy {timer : Int} {d : Watchdog} {flushed : Bool} {now : Int} :
    (d.tick timer false flushed now).state = .active := rfl

/-- The first idle tick starts the timer, and the first one after it that flushes frees the
instance. -/
theorem Watchdog.tick_idle {timer now later : Int} {d : Watchdog} {flushed : Bool}
    (hactive : d.state = .active) (hlater : timer * 1000 ≤ later - now) :
    (d.tick timer true flushed now).state = .draining ∧
      ((d.tick timer true flushed now).tick timer true true later).state = .unassigned := by
  have hnone := d.active_since hactive
  have hfirst : d.tick timer true flushed now =
      { state := .draining, becameIdleAt := some now } := by
    simp [tick, hactive, hnone]
  rw [hfirst]
  refine ⟨rfl, ?_⟩
  simp only [tick, Bool.true_eq_false, if_false, reduceCtorEq, if_true]
  rw [if_neg (not_lt.mpr hlater)]

namespace Registry

variable {c : Routing} {s t : Registry} {e : Event} {p q w : Nat} {job : Job} {id : String}

theorem queue_openQueue {key : String} (hq : q < s.queueCount) :
    (s.openQueue w key).1.queue q = s.queue q := by
  unfold openQueue
  split
  · rfl
  · rw [queue_newQueue, if_neg hq.ne]

theorem notifying_of_step (hstep : Stepped c s e t) (hq : q < s.queueCount)
    (hloop : (s.queue q).loop = .notifying) (hne : e ≠ .notify q) :
    (t.queue q).loop = .notifying := by
  -- the other loops move on, and this one is in none of the places a queue moves on from
  have hset : ∀ {u : Registry} {p : Nat} {x : Queue}, u.queue = s.queue →
      (p = q → x.loop = .notifying) → ((u.setQueue p x).queue q).loop = .notifying := by
    intro u p x hu hx
    rw [queue_setQueue]
    split
    · next hqp => exact hx hqp.symm
    · rw [hu]
      exact hloop
  have hrun : ∀ {p : Nat} {l : Loop}, (s.queue p).loop = l → l ≠ .notifying → p ≠ q := by
    intro p l hp hl hpq
    rw [hpq, hloop] at hp
    exact hl hp.symm
  cases hstep with
  | resolve | workerFor =>
    rw [resolveWorker_eq]
    exact hloop
  | grant =>
    refine (congrArg Queue.loop queue_setQueue).trans ?_
    split
    · next hqp =>
      rw [← hqp, queue_openQueue hq]
      exact hloop
    · rw [queue_openQueue hq]
      exact hloop
  | handoff => exact hset rfl fun hp => hp ▸ hloop
  | dropStale =>
    rw [dropWorker_eq]
    exact hloop
  | @attach p jobs => exact hset (u := s) (p := p) rfl fun hp => hp ▸ hloop
  | elapse => exact hset rfl fun hpq => hpq ▸ hloop
  | takeSpills _ hp | paged _ hp | take _ hp | load _ hp | exhaust _ hp | idle _ hp
  | check _ hp | recheck _ hp =>
    exact hset rfl fun hpq => absurd hpq (hrun hp (by simp))
  | @finish p job _ hp | @expire p job _ hp =>
    exact hset (u := s) (p := p) rfl fun hpq => absurd hpq (hrun hp (by simp))
  | onIdle _ hp =>
    have hpq := hrun hp (by simp)
    simp only [onIdle]
    split
    · exact hset rfl fun h => absurd h hpq
    · split <;> exact hset rfl fun h => absurd h hpq
  | @notify p =>
    refine hset (by rw [dropWorker_eq]) fun hpq => ?_
    exact absurd (by rw [hpq]) hne
  | _ => exact hloop

theorem submitted_of_step (hstep : Stepped c s e t) (hid : id ∈ s.submitted) :
    id ∈ t.submitted := by
  cases hstep with
  | submit => exact List.mem_cons_of_mem _ hid
  | attach => exact List.mem_append_right _ hid
  | resolve | workerFor =>
    rw [resolveWorker_eq]
    exact hid
  | grant =>
    rw [grant_eq]
    exact hid
  | dropStale | notify =>
    rw [dropWorker_eq]
    exact hid
  | onIdle =>
    rw [onIdle_eq]
    exact hid
  | _ => exact hid

/-- A call is filed under the id of its job. -/
def Keyed (s : Registry) : Prop :=
  ∀ {id call}, s.calls.lookup id = some call → call.job.id = id ∧ id ∈ s.submitted

theorem keyed_step (h : Keyed s) (hstep : Stepped c s e t) : Keyed t := by
  intro id call hcall
  rcases call_of_step hstep hcall with hold | hmoved
  · exact ⟨(h hold).1, submitted_of_step hstep (h hold).2⟩
  cases hmoved with
  | submitted =>
    cases hstep
    exact ⟨rfl, List.mem_cons_self⟩
  | resolved hold | again hold => exact ⟨(h hold).1, submitted_of_step hstep (h hold).2⟩
  | refused hold | reserved hold | handed hold =>
    obtain ⟨rfl, hsub⟩ := h hold
    exact ⟨rfl, submitted_of_step hstep hsub⟩

/-- A call that has its worker keeps it until it asks for a slot. -/
theorem resolved_of_step (h : Keyed s) (hstep : Stepped c s e t)
    (hcall : s.calls.lookup id = some (.resolved job w)) :
    t.calls.lookup id = some (.resolved job w) ∨ ∃ enforced, e = .reserve id enforced := by
  have hset : ∀ {u : Registry} {id' : String} {new : Call}, u.calls = s.calls → id ≠ id' →
      (u.setCall id' new).calls.lookup id = some (.resolved job w) := by
    intro u id' new hu hne
    rw [lookup_setCall, if_neg hne, hu]
    exact hcall
  have hend : ∀ {u : Registry} {id' : String}, u.calls = s.calls → id ≠ id' →
      (u.endCall id').calls.lookup id = some (.resolved job w) := by
    intro u id' hu hne
    rw [lookup_endCall, if_neg hne, hu]
    exact hcall
  -- a call at another point of its way is another call
  have hother : ∀ {id' : String} {call : Call}, s.calls.lookup id' = some call →
      call ≠ .resolved job w → id ≠ id' := by
    intro id' call hcall' hne hid
    rw [hid, hcall'] at hcall
    exact hne (Option.some.inj hcall)
  cases hstep with
  | submit hfresh => exact Or.inl (hset rfl fun hid => hfresh (hid ▸ (h hcall).2))
  | resolve hold =>
    exact Or.inl (hset (by rw [resolveWorker_eq]) (hother hold (by simp)))
  | @refuse _ enforced _ _ hold =>
    obtain ⟨rfl, _⟩ := h hold
    refine or_iff_not_imp_right.mpr fun hne => hset rfl fun hid => hne ⟨enforced, ?_⟩
    rw [hid]
    rfl
  | @grant _ enforced _ _ hold =>
    obtain ⟨rfl, _⟩ := h hold
    rw [grant_eq]
    refine or_iff_not_imp_right.mpr fun hne => hset rfl fun hid => hne ⟨enforced, ?_⟩
    rw [hid]
    rfl
  | @reject _ enforced _ _ hold =>
    obtain ⟨rfl, _⟩ := h hold
    refine or_iff_not_imp_right.mpr fun hne => hend rfl fun hid => hne ⟨enforced, ?_⟩
    rw [hid]
    rfl
  | handoff hold =>
    obtain ⟨rfl, _⟩ := h hold
    exact Or.inl (hset rfl (hother hold (by simp)))
  | account hold => exact Or.inl (hend rfl (hother hold (by simp)))
  | dropStale hold => exact Or.inl (hset (by rw [dropWorker_eq]) (hother hold (by simp)))
  | workerFor =>
    rw [resolveWorker_eq]
    exact Or.inl hcall
  | notify =>
    rw [dropWorker_eq]
    exact Or.inl hcall
  | onIdle =>
    rw [onIdle_eq]
    exact Or.inl hcall
  | _ => exact Or.inl hcall

/-- Where the workers come from and where they go. One that never had a queue was made by
`WorkerFor` or waits for the call that made it; one that had a queue has one or has stopped; and one
that has stopped and is still on the map is about to be taken off it. -/
structure Origins (s : Registry) : Prop where
  keyed : Keyed s
  unopened : ∀ {w}, w < s.workerCount → (s.worker w).opened = false →
    (s.worker w).queues = ∅ ∧ (s.worker w).stopped = false ∧
      ((s.worker w).direct = true ∨ ∃ id job, s.calls.lookup id = some (.resolved job w))
  opened : ∀ {w}, w < s.workerCount → (s.worker w).opened = true →
    (s.worker w).stopped = true ∨ (s.worker w).queues ≠ ∅
  notified : ∀ {k w}, s.workers.lookup k = some w → (s.worker w).stopped = true →
    ∃ q < s.queueCount, (s.queue q).worker = w ∧ (s.queue q).loop = .notifying

theorem origins_init : Origins {} where
  keyed := by simp [Keyed]
  unopened := by simp
  opened := by simp
  notified := by simp

/-- What becomes of a worker in a step: it is as it was but for its mode, it gets a queue, or one of
its queues retires. -/
inductive Worker.Changed (e : Event) (x y : Worker) : Prop
  | same (hopened : y.opened = x.opened) (hqueues : y.queues = x.queues)
      (hstop : y.stopped = x.stopped)
  | gained (hopened : y.opened = true) (hqueues : y.queues ≠ ∅) (hstop : y.stopped = x.stopped)
  | lost {q : Nat} (he : e = .onIdle q) (hopened : y.opened = x.opened) (hqueues : x.queues ≠ ∅)
      (hleft : y.stopped = true ∨ y.queues ≠ ∅)

theorem queues_ne_of_lookup {x : Worker} {k : String} (h : x.queues.lookup k = some q) :
    x.queues ≠ ∅ := by
  intro hempty
  rw [hempty] at h
  cases h

theorem changed_resolveWorker {key : String} {direct : Bool} (hw : w < s.workerCount) :
    Worker.Changed e (s.worker w) ((s.resolveWorker c key direct).1.worker w) := by
  unfold resolveWorker
  split
  · exact .same rfl rfl rfl
  · rw [worker_newWorker, if_neg hw.ne]
    exact .same rfl rfl rfl

theorem changed_openQueue {v : Nat} {key : String} :
    Worker.Changed e (s.worker w) ((s.openQueue v key).1.worker w) := by
  unfold openQueue
  split
  · exact .same rfl rfl rfl
  · rw [worker_newQueue]
    split
    · next hw => exact .gained rfl (queues_ne_of_lookup (AList.lookup_insert _)) (by rw [hw])
    · exact .same rfl rfl rfl

theorem changed_onIdle : Worker.Changed (.onIdle q) (s.worker w) ((s.onIdle q).worker w) := by
  simp only [onIdle]
  split
  · exact .same rfl rfl rfl
  · next hidle =>
    rw [not_or, not_not] at hidle
    have hqueues := queues_ne_of_lookup hidle.1
    split
    · refine (worker_setWorker (s := s)).symm ▸ ?_
      split
      · next hw => exact .lost rfl (by rw [hw]) (hw ▸ hqueues) (Or.inl rfl)
      · exact .same rfl rfl rfl
    · next hleft =>
      refine (worker_setWorker (s := s)).symm ▸ ?_
      split
      · next hw =>
        refine .lost rfl (by rw [hw]) (hw ▸ hqueues) (Or.inr fun hempty => hleft ?_)
        exact congrArg AList.entries hempty
      · exact .same rfl rfl rfl

theorem worker_changed (hstep : Stepped c s e t) (hw : w < s.workerCount) :
    Worker.Changed e (s.worker w) (t.worker w) := by
  cases hstep with
  | resolve | workerFor => exact changed_resolveWorker hw
  | grant => exact changed_openQueue
  | @mode v =>
    rw [worker_setWorker]
    split
    · next hvw => exact .same (by rw [hvw]) (by rw [hvw]) (by rw [hvw])
    · exact .same rfl rfl rfl
  | dropStale | notify =>
    rw [dropWorker_eq]
    exact .same rfl rfl rfl
  | onIdle => exact changed_onIdle
  | _ => exact .same rfl rfl rfl

/-- A worker that was not there before has just been made, for a call or by `WorkerFor`. -/
theorem worker_new (hstep : Stepped c s e t) (hw : w < t.workerCount) (hnew : s.workerCount ≤ w) :
    ((t.worker w).opened = false ∧ (t.worker w).queues = ∅ ∧ (t.worker w).stopped = false) ∧
      ((t.worker w).direct = true ∨ ∃ id job, t.calls.lookup id = some (.resolved job w)) := by
  have hmade : ∀ {key : String} {direct : Bool}, w < (s.resolveWorker c key direct).1.workerCount →
      (s.resolveWorker c key direct).1.worker w =
        { key, accountQueueMode := c.accountQueueDefault, direct } ∧
      (s.resolveWorker c key direct).2 = w := by
    intro key direct hlt
    unfold resolveWorker at hlt ⊢
    split at hlt
    · exact absurd hlt (not_lt.mpr hnew)
    · have heq := Nat.le_antisymm hnew (Nat.le_of_lt_succ hlt)
      rw [worker_newWorker, if_pos heq.symm]
      exact ⟨rfl, heq⟩
  cases hstep with
  | @resolve id job hcall =>
    obtain ⟨hworker, hres⟩ := hmade hw
    refine ⟨?_, Or.inr ⟨id, job, ?_⟩⟩
    · rw [show ((s.resolveWorker c (c.workerKey job) false).1.setCall id _).worker w =
        _ from hworker]
      exact ⟨rfl, rfl, rfl⟩
    · rw [lookup_setCall, if_pos rfl, hres]
  | workerFor =>
    rw [(hmade hw).1]
    exact ⟨⟨rfl, rfl, rfl⟩, Or.inl rfl⟩
  | grant =>
    refine absurd hw (not_lt.mpr (le_trans (le_of_eq ?_) hnew))
    simp only [grant, openQueue]
    split <;> rfl
  | dropStale | notify =>
    rw [dropWorker_eq] at hw
    exact absurd hw (not_lt.mpr hnew)
  | onIdle =>
    rw [onIdle_eq] at hw
    exact absurd hw (not_lt.mpr hnew)
  | _ => exact absurd hw (not_lt.mpr hnew)

theorem opened_step (h : Origins s) (hstep : Stepped c s e t) (hw : w < t.workerCount)
    (hopened : (t.worker w).opened = true) :
    (t.worker w).stopped = true ∨ (t.worker w).queues ≠ ∅ := by
  rcases Nat.lt_or_ge w s.workerCount with hold | hnew
  · cases worker_changed hstep hold with
    | same hop hqueues hstop =>
      rw [hqueues, hstop]
      exact h.opened hold (hop ▸ hopened)
    | gained _ hqueues => exact Or.inr hqueues
    | lost _ _ _ hleft => exact hleft
  · rw [(worker_new hstep hw hnew).1.1] at hopened
    cases hopened

theorem unopened_step (h : Origins s) (hstep : Stepped c s e t)
    (hw : w < t.workerCount) (hopened : (t.worker w).opened = false) :
    (t.worker w).queues = ∅ ∧ (t.worker w).stopped = false ∧
      ((t.worker w).direct = true ∨ ∃ id job, t.calls.lookup id = some (.resolved job w)) := by
  rcases Nat.lt_or_ge w s.workerCount with hold | hnew
  · cases worker_changed hstep hold with
    | same hop hqueues hstop =>
      obtain ⟨hempty, hrun, horigin⟩ := h.unopened hold (hop ▸ hopened)
      refine ⟨hqueues.trans hempty, hstop.trans hrun, ?_⟩
      rcases horigin with hdirect | ⟨id, job, hcall⟩
      · exact Or.inl (((kept_step hstep).worker hold).direct.trans hdirect)
      rcases resolved_of_step h.keyed hstep hcall with hcall' | ⟨enforced, rfl⟩
      · exact Or.inr ⟨id, job, hcall'⟩
      -- the call is answered by this worker, which has not stopped and gets its first queue
      exfalso
      cases hstep with
      | refuse hcall' hstopped =>
        cases hcall.symm.trans hcall'
        cases hrun.symm.trans hstopped
      | grant hcall' =>
        cases hcall.symm.trans hcall'
        exact queues_ne_of_lookup Queues.lookup_openQueue (hqueues.trans hempty)
      | reject hcall' hqueue =>
        cases hcall.symm.trans hcall'
        exact hqueue hempty
    | gained hop => cases hopened.symm.trans hop
    | lost _ hop hqueues => exact absurd (h.unopened hold (hop ▸ hopened)).1 hqueues
  · obtain ⟨⟨_, hqueues, hstop⟩, horigin⟩ := worker_new hstep hw hnew
    exact ⟨hqueues, hstop, horigin⟩

/-- The queue whose retirement stops the worker is the one to tell the registry. -/
theorem notifying_of_stop (hrun : (s.worker w).stopped = false)
    (hstop : ((s.onIdle q).worker w).stopped = true) :
    ((s.onIdle q).queue q).worker = w ∧ ((s.onIdle q).queue q).loop = .notifying := by
  simp only [onIdle] at hstop ⊢
  split at hstop
  · cases hrun.symm.trans hstop
  · next hidle =>
    rw [if_neg hidle]
    split at hstop
    · next hleft =>
      rw [if_pos hleft, queue_setQueue, if_pos rfl]
      by_cases hw : w = (s.queue q).worker
      · exact ⟨hw.symm, rfl⟩
      · replace hstop := (congrArg Worker.stopped (worker_setWorker.trans (if_neg hw))).symm.trans
          hstop
        cases hrun.symm.trans hstop
    · replace hstop := (congrArg Worker.stopped worker_setWorker).symm.trans hstop
      split at hstop
      · next hw => cases (hw ▸ hrun).symm.trans hstop
      · cases hrun.symm.trans hstop

theorem lookup_dropWorker {k : String} (h : Workers s) :
    (s.dropWorker (s.worker w).key w).workers.lookup k ≠ some w := by
  unfold dropWorker
  split
  · rw [Assoc.lookup_erase_ite]
    split
    · simp
    · next hne => exact fun hk => hne (h.entry hk).2.symm
  · next hnot => exact fun hk => hnot ((h.entry hk).2 ▸ hk)

theorem notified_step {k : String} (hs : Sound s) (h : Origins s) (hstep : Stepped c s e t)
    (hentry : t.workers.lookup k = some w) (hstop : (t.worker w).stopped = true) :
    ∃ q < t.queueCount, (t.queue q).worker = w ∧ (t.queue q).loop = .notifying := by
  have hw := ((workers_step hs hstep).entry hentry).1
  rcases lookup_workers_step hstep hentry with hold | ⟨-, hnew⟩
  swap
  · cases (worker_new hstep hw hnew).1.2.2.symm.trans hstop
  have hkept := kept_step hstep
  by_cases hrun : (s.worker w).stopped = true
  · obtain ⟨q, hq, rfl, hloop⟩ := h.notified hold hrun
    have hne : e ≠ .notify q := by
      rintro rfl
      cases hstep
      exact lookup_dropWorker hs.workers hentry
    exact ⟨q, hq.trans_le hkept.queues, (hkept.queue hq).worker,
      notifying_of_step hstep hq hloop hne⟩
  · rw [Bool.not_eq_true] at hrun
    cases worker_changed hstep (hs.workers.entry hold).1 with
    | same _ _ hsame | gained _ _ hsame => cases hrun.symm.trans (hsame.symm.trans hstop)
    | lost he =>
      subst he
      cases hstep with
      | onIdle hq => exact ⟨_, hq.trans_le hkept.queues, notifying_of_stop hrun hstop⟩

theorem origins_step (hs : Sound s) (h : Origins s) (hstep : Stepped c s e t) : Origins t where
  keyed := keyed_step h.keyed hstep
  unopened := unopened_step h hstep
  opened := opened_step h hstep
  notified := notified_step hs h hstep

/-- No request is being handled, no job is owed and every queue's loop has returned. -/
def Idle (s : Registry) : Prop :=
  s.calls.keys = [] ∧ ∀ q < s.queueCount, (s.queue q).backlog = [] ∧ (s.queue q).loop = .returned

instance : Decidable (Idle s) := inferInstanceAs (Decidable (_ ∧ _))

/-- Every worker that `WorkerFor` made has had a queue. -/
def Settled (s : Registry) : Prop :=
  ∀ w < s.workerCount, (s.worker w).direct = true → (s.worker w).opened = true

theorem workers_of_idle (hs : Sound s) (h : Origins s) (hidle : Idle s) :
    s.workers.keys = [] ↔ Settled s := by
  obtain ⟨hcalls, hqueues⟩ := hidle
  rw [Assoc.keys_eq_nil_iff] at hcalls ⊢
  constructor
  · intro hempty w hw _
    by_contra hopened
    have hrun := (h.unopened hw (Bool.eq_false_iff.mpr hopened)).2.1
    have hcurrent := hs.workers.current hw hrun
    rw [hempty] at hcurrent
    cases hcurrent
  · intro hsettled
    by_contra hne
    obtain ⟨k, w, hentry⟩ := Assoc.exists_lookup_of_ne hne
    have hw := (hs.workers.entry hentry).1
    have hrun : (s.worker w).stopped ≠ true := by
      intro hstop
      obtain ⟨q, hq, _, hloop⟩ := h.notified hentry hstop
      cases hloop.symm.trans (hqueues q hq).2
    cases hopened : (s.worker w).opened with
    | true =>
      -- it has a queue, and the loop of a registered queue has not returned
      obtain ⟨k', q, hk⟩ := Assoc.exists_lookup_of_ne ((h.opened hw hopened).resolve_left hrun)
      have hq := (hs.queues.entry hw hk).1
      exact (hs.queues.live hq (hs.queues.registered_of_lookup hw hk)).2.1 (hqueues q hq).2
    | false =>
      rcases (h.unopened hw hopened).2.2 with hdirect | ⟨id, job, hcall⟩
      · cases hopened.symm.trans (hsettled w hw hdirect)
      · rw [hcalls] at hcall
        cases hcall

theorem origins_run {es : List Event} (hrun : Trace.exec (step c) {} es = some s) :
    Sound s ∧ Origins s := by
  refine Trace.exec_always (I := fun s => Sound s ∧ Origins s) ?_ ⟨sound_init, origins_init⟩ hrun
  rintro s t e ⟨hs, ho⟩ hstep
  exact ⟨sound_step hs (stepped_of_step hstep), origins_step hs ho (stepped_of_step hstep)⟩

/-- An instance with nothing to do has no workers, and the watchdog can take it through draining to
unassigned, exactly when every worker that `WorkerFor` made has had a queue since. -/
theorem idle_instance_drains_iff {es : List Event} (hrun : Trace.exec (step c) {} es = some s)
    (hidle : Idle s) :
    (s.workers.keys = [] ↔
      ∀ w < s.workerCount, (s.worker w).direct = true → (s.worker w).opened = true) ∧
    ∀ (timer now later : Int) (d : Watchdog) (flushed : Bool), d.state = .active →
      timer * 1000 ≤ later - now →
      ((d.tick timer (s.workers.keys = []) flushed now).state = .draining ∧
          ((d.tick timer (s.workers.keys = []) flushed now).tick timer (s.workers.keys = []) true
            later).state = .unassigned ↔
        ∀ w < s.workerCount, (s.worker w).direct = true → (s.worker w).opened = true) := by
  obtain ⟨hs, ho⟩ := origins_run hrun
  have hiff := workers_of_idle hs ho hidle
  refine ⟨hiff, ?_⟩
  intro timer now later d flushed hactive hlater
  by_cases hempty : s.workers.keys = []
  · rw [decide_eq_true hempty]
    exact iff_of_true (Watchdog.tick_idle hactive hlater) (hiff.mp hempty)
  · rw [decide_eq_false hempty]
    refine iff_of_false ?_ (mt hiff.mpr hempty)
    rintro ⟨hdraining, _⟩
    cases Watchdog.tick_busy.symm.trans hdraining

/-- A proxy request that looks at the breaker first and is queued then leaves nothing behind. -/
theorem queued_proxy_drains : ∃ s, Trace.exec (step oneHost) {} [.workerFor jobA, .submit jobA,
      .resolve "a", .reserve "a" none, .handoff "a", .account "a", .take 0 false, .finish 0 "a",
      .idle 0, .check 0, .onIdle 0, .notify 0, .recheck 0] = some s ∧ Idle s ∧
    s.workers.keys = [] := by
  have hrun : ∃ s, Trace.exec (step oneHost) {} [.workerFor jobA, .submit jobA,
      .resolve "a", .reserve "a" none, .handoff "a", .account "a", .take 0 false, .finish 0 "a",
      .idle 0, .check 0, .onIdle 0, .notify 0, .recheck 0] = some s ∧ Idle s ∧
      ∀ w < s.workerCount, (s.worker w).direct = true → (s.worker w).opened = true := by
    decide +kernel
  obtain ⟨s, hrun, hidle, hopened⟩ := hrun
  exact ⟨s, hrun, hidle, (idle_instance_drains_iff hrun hidle).1.mpr hopened⟩

/-- A proxy request that is answered directly leaves its worker on the map for good, and the
instance never drains. -/
theorem direct_proxy_stays_active : ∃ s,
    Trace.exec (step oneHost) {} [.workerFor jobA] = some s ∧ Idle s ∧ s.workers.keys ≠ [] ∧
    (({ } : Watchdog).tick 60 (s.workers.keys = []) true 0).state = .active ∧
    ((({ } : Watchdog).tick 60 (s.workers.keys = []) true 0).tick 60 (s.workers.keys = []) true
      100000).state = .active := by
  decide +kernel

end Registry

end Aquifer
