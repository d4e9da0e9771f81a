import Aquifer.Dispatch.Registry

/-! What a step of the registry does: the cases of an event, the parts of the state that each
section under a lock leaves alone, and what no step takes back. -/
namespace Aquifer.Registry

variable {c : Routing} {s t : Registry} {e : Event} {q w : Nat} {job : Job} {id : String}
  {key : String} {call : Call} {v : Nat} {direct : Bool} {id' : String}

/-- The steps of the registry, one for each way an event can go. -/
inductive Stepped (c : Routing) (s : Registry) : Event → Registry → Prop
  | submit {job : Job} (hfresh : job.id ∉ s.submitted) :
      Stepped c s (.submit job)
        ({ s with submitted := job.id :: s.submitted }.setCall job.id (.start job))
  | resolve {id : String} {job : Job} (hcall : s.calls.lookup id = some (.start job)) :
      Stepped c s (.resolve id)
        ((s.resolveWorker c (c.workerKey job) false).1.setCall id
          (.resolved job (s.resolveWorker c (c.workerKey job) false).2))
  | refuse {id : String} {enforced : Option Terms} {job : Job} {w : Nat}
      (hcall : s.calls.lookup id = some (.resolved job w)) (hstop : (s.worker w).stopped = true) :
      Stepped c s (.reserve id enforced) (s.setCall job.id (.refused job w))
  | grant {id : String} {enforced : Option Terms} {job : Job} {w : Nat}
      (hcall : s.calls.lookup id = some (.resolved job w)) (hlive : (s.worker w).stopped = false) :
      Stepped c s (.reserve id enforced) (s.grant c job w)
  | reject {id : String} {enforced : Option Terms} {job : Job} {w : Nat}
      (hcall : s.calls.lookup id = some (.resolved job w))
      (hqueue : (s.worker w).queues ≠ ∅) :
      Stepped c s (.reserve id enforced) (s.endCall job.id)
  | handoff {id : String} {job : Job} {q : Nat}
      (hcall : s.calls.lookup id = some (.reserved job q)) :
      Stepped c s (.handoff id)
        ((s.setQueue q { s.queue q with cmds := (s.queue q).cmds ++ [job] }).setCall job.id
          (.handed job))
  | account {id : String} {job : Job} (hcall : s.calls.lookup id = some (.handed job)) :
      Stepped c s (.account id)
        ({ s with accepted := job :: s.accepted, users := s.users.add job }.endCall id)
  | dropStale {id : String} {job : Job} {w : Nat}
      (hcall : s.calls.lookup id = some (.refused job w)) :
      Stepped c s (.dropStale id) ((s.dropWorker (c.workerKey job) w).setCall id (.start job))
  | workerFor {job : Job} :
      Stepped c s (.workerFor job) (s.resolveWorker c (c.workerKey job) true).1
  | mode {w : Nat} {on : Bool} (hw : w < s.workerCount) :
      Stepped c s (.mode w on) (s.setWorker w { s.worker w with accountQueueMode := on })
  | leftInFlight {id : String} :
      Stepped c s (.leftInFlight id) { s with inFlight := id :: s.inFlight }
  | attach {q : Nat} {jobs : List Job} (hq : q < s.queueCount) :
      Stepped c s (.attach q jobs)
        { s.setQueue q { s.queue q with
            spilled := jobs ++ (s.queue q).spilled
            pending := jobs ++ (s.queue q).pending } with
          submitted := jobs.map Job.id ++ s.submitted
          attached := jobs ++ s.attached }
  | takeSpills {q : Nat} (hq : q < s.queueCount) (hloop : (s.queue q).loop = .running) :
      Stepped c s (.takeSpills q) (s.setQueue q { s.queue q with
        paged := (s.queue q).pending ++ (s.queue q).paged
        pending := []
        spilling := (s.queue q).spilling || !(s.queue q).pending.isEmpty })
  | paged {q : Nat} (hq : q < s.queueCount) (hloop : (s.queue q).loop = .running)
      (hspill : (s.queue q).spilling = true) :
      Stepped c s (.paged q) (s.setQueue q { s.queue q with recent := true })
  | elapse {q : Nat} (hq : q < s.queueCount) :
      Stepped c s (.elapse q) (s.setQueue q { s.queue q with recent := false })
  | take {q : Nat} {left : Bool} {job : Job} {rest : List Job} (hq : q < s.queueCount)
      (hloop : (s.queue q).loop = .running) (hcmds : (s.queue q).cmds = job :: rest) :
      Stepped c s (.take q left) (s.setQueue q (s.accept (s.queue q) job rest left))
  | load {q : Nat} {id : String} {job : Job} (hq : q < s.queueCount)
      (hloop : (s.queue q).loop = .running) (hspill : (s.queue q).spilling = true)
      (hjob : job ∈ (s.queue q).backlog) :
      Stepped c s (.load q id) (s.setQueue q { s.queue q with
        held := job :: (s.queue q).held, paged := (s.queue q).paged.erase job })
  | finish {q : Nat} {job : Job} (hq : q < s.queueCount) (hloop : (s.queue q).loop = .running)
      (hjob : job ∈ (s.queue q).held) :
      Stepped c s (.finish q job.id) (s.settle q job)
  | expire {q : Nat} {job : Job} (hq : q < s.queueCount) (hloop : (s.queue q).loop = .running)
      (hspill : (s.queue q).spilling = true) (hjob : job ∈ (s.queue q).backlog) :
      Stepped c s (.expire q job.id) (s.settle q job)
  | exhaust {q : Nat} (hq : q < s.queueCount) (hloop : (s.queue q).loop = .running) :
      Stepped c s (.exhaust q) (s.setQueue q { s.queue q with spilling := false })
  | idle {q : Nat} (hq : q < s.queueCount) (hloop : (s.queue q).loop = .running) :
      Stepped c s (.idle q) (s.setQueue q { s.queue q with loop := .idled })
  | check {q : Nat} (hq : q < s.queueCount) (hloop : (s.queue q).loop = .idled) :
      Stepped c s (.check q) (s.setQueue q { s.queue q with
        loop := if (s.queue q).cmds = [] then .retiring else .running })
  | onIdle {q : Nat} (hq : q < s.queueCount) (hloop : (s.queue q).loop = .retiring) :
      Stepped c s (.onIdle q) (s.onIdle q)
  | notify {q : Nat} (hq : q < s.queueCount) (hloop : (s.queue q).loop = .notifying) :
      Stepped c s (.notify q)
        ((s.dropWorker (s.worker (s.queue q).worker).key (s.queue q).worker).setQueue q
          { s.queue q with loop := .checking })
  | recheck {q : Nat} (hq : q < s.queueCount) (hloop : (s.queue q).loop = .checking) :
      Stepped c s (.recheck q) (s.setQueue q { s.queue q with
        loop := if (s.queue q).backlog ≠ [] ∨ (s.queue q).cmds ≠ [] then .running else .returned })

theorem move_eq_some {x : Queue} (h : s.move q x = some t) :
    q < s.queueCount ∧ s.setQueue q x = t := by
  simpa [move] using h

/-- Admission turns jobs away only where there is a backlog. -/
theorem queues_ne_of_rejected {enforced : Option Terms} (h : ¬ s.admits c job w enforced = true) :
    (s.worker w).queues ≠ ∅ := by
  intro hempty
  apply h
  cases enforced with
  | none => rfl
  | some terms =>
    apply Budget.allowed_of_no_queues
    simp only [budget, hempty]
    rfl

theorem reserve_stepped {enforced : Option Terms}
    (hcall : s.calls.lookup id = some (.resolved job w)) :
    Stepped c s (.reserve id enforced) (s.reserve c job w enforced) := by
  unfold reserve
  split
  · next hstop => exact .refuse hcall hstop
  · next hlive =>
    split
    · exact .grant hcall (by simpa using hlive)
    · next hrejected => exact .reject hcall (queues_ne_of_rejected hrejected)

theorem stepped_of_step (h : s.step c e = some t) : Stepped c s e t := by
  cases e with
  | submit job =>
    simp only [step, Option.ite_none_left_eq_some] at h
    obtain ⟨hfresh, ⟨⟩⟩ := h
    exact .submit hfresh
  | resolve id =>
    simp only [step] at h
    split at h
    · next job hcall =>
      cases h
      exact .resolve hcall
    · cases h
  | reserve id allowed =>
    simp only [step] at h
    split at h
    · next job w hcall =>
      cases h
      exact reserve_stepped hcall
    · cases h
  | handoff id =>
    simp only [step, handoff] at h
    split at h
    · next job q hcall =>
      obtain ⟨_, ⟨⟩⟩ := Option.ite_none_right_eq_some.mp h
      exact .handoff hcall
    · cases h
  | account id =>
    simp only [step] at h
    split at h
    · next job hcall =>
      cases h
      exact .account hcall
    · cases h
  | dropStale id =>
    simp only [step] at h
    split at h
    · next job w hcall =>
      cases h
      exact .dropStale hcall
    · cases h
  | workerFor job =>
    cases h
    exact .workerFor
  | mode w on =>
    obtain ⟨hw, ⟨⟩⟩ := Option.ite_none_right_eq_some.mp h
    exact .mode hw
  | leftInFlight id =>
    obtain ⟨-, ⟨⟩⟩ := Option.ite_none_left_eq_some.mp h
    exact .leftInFlight
  | attach q jobs =>
    obtain ⟨⟨hq, _⟩, ⟨⟩⟩ := Option.ite_none_right_eq_some.mp h
    exact .attach hq
  | takeSpills q =>
    obtain ⟨hloop, hmove⟩ := Option.ite_none_right_eq_some.mp h
    obtain ⟨hq, rfl⟩ := move_eq_some hmove
    exact .takeSpills hq hloop
  | paged q =>
    obtain ⟨⟨hloop, hspill⟩, hmove⟩ := Option.ite_none_right_eq_some.mp h
    obtain ⟨hq, rfl⟩ := move_eq_some hmove
    exact .paged hq hloop hspill
  | elapse q =>
    obtain ⟨hq, rfl⟩ := move_eq_some h
    exact .elapse hq
  | take q left =>
    simp only [step] at h
    split at h
    · next job rest hloop hcmds =>
      obtain ⟨hq, rfl⟩ := move_eq_some h
      exact .take hq hloop hcmds
    · cases h
  | load q id =>
    simp only [step] at h
    split at h
    · next job hfind =>
      obtain ⟨⟨hloop, hspill, _⟩, hmove⟩ := Option.ite_none_right_eq_some.mp h
      obtain ⟨hq, rfl⟩ := move_eq_some hmove
      exact .load hq hloop hspill (List.mem_of_find?_eq_some hfind)
    · cases h
  | finish q id =>
    simp only [step] at h
    split at h
    · next job hfind =>
      obtain ⟨⟨hq, hloop⟩, ⟨⟩⟩ := Option.ite_none_right_eq_some.mp h
      obtain rfl : job.id = id := by simpa using List.find?_some hfind
      exact .finish hq hloop (List.mem_of_find?_eq_some hfind)
    · cases h
  | expire q id =>
    simp only [step] at h
    split at h
    · next job hfind =>
      obtain ⟨⟨hq, hloop, hspill, _⟩, ⟨⟩⟩ := Option.ite_none_right_eq_some.mp h
      obtain rfl : job.id = id := by simpa using List.find?_some hfind
      exact .expire hq hloop hspill (List.mem_of_find?_eq_some hfind)
    · cases h
  | exhaust q =>
    obtain ⟨⟨hloop, _⟩, hmove⟩ := Option.ite_none_right_eq_some.mp h
    obtain ⟨hq, rfl⟩ := move_eq_some hmove
    exact .exhaust hq hloop
  | idle q =>
    obtain ⟨⟨hloop, _⟩, hmove⟩ := Option.ite_none_right_eq_some.mp h
    obtain ⟨hq, rfl⟩ := move_eq_some hmove
    exact .idle hq hloop
  | check q =>
    obtain ⟨hloop, hmove⟩ := Option.ite_none_right_eq_some.mp h
    obtain ⟨hq, rfl⟩ := move_eq_some hmove
    exact .check hq hloop
  | onIdle q =>
    obtain ⟨⟨hq, hloop⟩, ⟨⟩⟩ := Option.ite_none_right_eq_some.mp h
    exact .onIdle hq hloop
  | notify q =>
    obtain ⟨hloop, hmove⟩ := Option.ite_none_right_eq_some.mp h
    obtain ⟨hq, rfl⟩ := move_eq_some hmove
    refine .notify ?_ hloop
    simpa [dropWorker, apply_ite] using hq
  | recheck q =>
    obtain ⟨hloop, hmove⟩ := Option.ite_none_right_eq_some.mp h
    obtain ⟨hq, rfl⟩ := move_eq_some hmove
    exact .recheck hq hloop

@[simp]
theorem queue_setQueue {x : Queue} {p : Nat} :
    (s.setQueue q x).queue p = if p = q then x else s.queue p :=
  Function.update_apply ..

@[simp]
theorem worker_setWorker {x : Worker} :
    (s.setWorker w x).worker v = if v = w then x else s.worker v :=
  Function.update_apply ..

@[simp]
theorem worker_newWorker :
    (s.newWorker c key direct).worker v = if v = s.workerCount then
      { key, accountQueueMode := c.accountQueueDefault, direct } else s.worker v :=
  Function.update_apply ..

@[simp]
theorem worker_newQueue :
    (s.newQueue w key).worker v = if v = w then
      { s.worker w with queues := (s.worker w).queues.insert key s.queueCount, opened := true }
      else s.worker v :=
  Function.update_apply ..

@[simp]
theorem queue_newQueue {p : Nat} :
    (s.newQueue w key).queue p = if p = s.queueCount then { worker := w, key } else s.queue p :=
  Function.update_apply ..

theorem lookup_setCall :
    (s.setCall id call).calls.lookup id' = if id' = id then some call else s.calls.lookup id' :=
  Assoc.lookup_insert_ite

theorem lookup_endCall :
    (s.endCall id).calls.lookup id' = if id' = id then none else s.calls.lookup id' :=
  Assoc.lookup_erase_ite

-- the parts of the state that the steps under the locks leave alone
theorem dropWorker_eq :
    s.dropWorker key w = { s with workers := (s.dropWorker key w).workers } := by
  unfold dropWorker
  split <;> rfl

theorem resolveWorker_eq :
    (s.resolveWorker c key direct).1 = { s with
      workers := (s.resolveWorker c key direct).1.workers
      worker := (s.resolveWorker c key direct).1.worker
      workerCount := (s.resolveWorker c key direct).1.workerCount } := by
  unfold resolveWorker
  split <;> rfl

theorem grant_eq :
    s.grant c job w = { s with
      worker := (s.grant c job w).worker
      queue := (s.grant c job w).queue
      queueCount := (s.grant c job w).queueCount
      calls := s.calls.insert job.id
        (.reserved job (s.openQueue w (c.queueKeyLocked (s.worker w).accountQueueMode job)).2)
          } := by
  simp only [grant, openQueue]
  split <;> rfl

theorem onIdle_eq :
    s.onIdle q = { s with worker := (s.onIdle q).worker, queue := (s.onIdle q).queue } := by
  simp only [onIdle]
  split
  · rfl
  · split <;> rfl

/-- How the step moved the call to where it stands now. -/
inductive Moved (c : Routing) (s t : Registry) : Event → String → Call → Prop
  | submitted {job : Job} (hfresh : job.id ∉ s.submitted) :
      Moved c s t (.submit job) job.id (.start job)
  | resolved {id : String} {job : Job} (hcall : s.calls.lookup id = some (.start job))
      (ht : t.workerCount = (s.resolveWorker c (c.workerKey job) false).1.workerCount) :
      Moved c s t (.resolve id) id
        (.resolved job (s.resolveWorker c (c.workerKey job) false).2)
  | refused {id : String} {enforced : Option Terms} {job : Job} {w : Nat}
      (hcall : s.calls.lookup id = some (.resolved job w)) (hstop : (s.worker w).stopped = true) :
      Moved c s t (.reserve id enforced) job.id (.refused job w)
  | reserved {id : String} {enforced : Option Terms} {job : Job} {w : Nat}
      (hcall : s.calls.lookup id = some (.resolved job w)) (ht : t = s.grant c job w) :
      Moved c s t (.reserve id enforced) job.id
        (.reserved job (s.openQueue w (c.queueKeyLocked (s.worker w).accountQueueMode job)).2)
  | handed {id : String} {job : Job} {q : Nat}
      (hcall : s.calls.lookup id = some (.reserved job q))
      (ht : t = (s.setQueue q { s.queue q with cmds := (s.queue q).cmds ++ [job] }).setCall job.id
        (.handed job)) :
      Moved c s t (.handoff id) job.id (.handed job)
  | again {id : String} {job : Job} {w : Nat} (hcall : s.calls.lookup id = some (.refused job w)) :
      Moved c s t (.dropStale id) id (.start job)

theorem moved_of_setCall {u : Registry} {new : Call} (hu : u.calls = s.calls)
    (hcall : (u.setCall id' new).calls.lookup id = some call) (hnew : Moved c s t e id' new) :
    s.calls.lookup id = some call ∨ Moved c s t e id call := by
  rw [lookup_setCall, hu] at hcall
  split at hcall
  · next hid =>
    cases hcall
    exact Or.inr (hid ▸ hnew)
  · exact Or.inl hcall

theorem lookup_of_endCall {u : Registry} (hu : u.calls = s.calls)
    (hcall : (u.endCall id').calls.lookup id = some call) : s.calls.lookup id = some call := by
  rw [lookup_endCall, hu] at hcall
  split at hcall
  · cases hcall
  · exact hcall

/-- A step moves at most one call and leaves the others where they were. -/
theorem call_of_step (h : Stepped c s e t) (hcall : t.calls.lookup id = some call) :
    s.calls.lookup id = some call ∨ Moved c s t e id call := by
  cases h with
  | submit hfresh => exact moved_of_setCall rfl hcall (.submitted hfresh)
  | resolve hold => exact moved_of_setCall (by rw [resolveWorker_eq]) hcall (.resolved hold rfl)
  | refuse hold hstop => exact moved_of_setCall rfl hcall (.refused hold hstop)
  | grant hold =>
    rw [grant_eq] at hcall
    exact moved_of_setCall rfl hcall (.reserved hold rfl)
  | handoff hold => exact moved_of_setCall rfl hcall (.handed hold rfl)
  | dropStale hold => exact moved_of_setCall (by rw [dropWorker_eq]) hcall (.again hold)
  | reject | account => exact Or.inl (lookup_of_endCall rfl hcall)
  | workerFor =>
    rw [resolveWorker_eq] at hcall
    exact Or.inl hcall
  | onIdle =>
    rw [onIdle_eq] at hcall
    exact Or.inl hcall
  | notify =>
    rw [dropWorker_eq] at hcall
    exact Or.inl hcall
  | _ => exact Or.inl hcall

/-- A job has reached the queue: it is in the buffer, in memory or to be paged in. -/
def Queue.Within (x : Queue) (job : Job) : Prop := job ∈ x.cmds ∨ job ∈ x.held ∨ job ∈ x.paged

/-- The queue stays with its worker; the jobs that are owed stay owed and, where `ok`, stay where
they can be found, or they have finished. -/
structure Queue.Kept (ok : Prop) (finished : List String) (x y : Queue) : Prop where
  worker : y.worker = x.worker
  owed : ∀ job ∈ x.owed, job.id ∈ finished ∨ job ∈ y.owed ∧ (ok → x.Within job → y.Within job)

/-- A worker does not come back, and what is on record about it stays. -/
structure Worker.Kept (x y : Worker) : Prop where
  stopped : x.stopped = true → y.stopped = true
  direct : y.direct = x.direct
  opened : x.opened = true → y.opened = true

/-- A hand-off that is taken in the window after a page does not find its row in flight. -/
def timely (s : Registry) : Event → Bool
  | .take q _ => !(s.queue q).recent || (s.queue q).cmds.head?.all fun job => job.id ∉ s.inFlight
  | _ => true

/-- What no step takes back. -/
structure Kept (ok : Prop) (s t : Registry) : Prop where
  workers : s.workerCount ≤ t.workerCount
  worker : ∀ {w}, w < s.workerCount → (s.worker w).Kept (t.worker w)
  queues : s.queueCount ≤ t.queueCount
  finished : ∀ {id}, id ∈ s.finished → id ∈ t.finished
  queue : ∀ {q}, q < s.queueCount → (s.queue q).Kept ok t.finished (t.queue q)

variable {ok : Prop}

theorem Queue.Kept.of_eq {finished : List String} {x y : Queue} (hworker : y.worker = x.worker)
    (howed : y.owed = x.owed) (hwithin : ∀ {j}, x.Within j → y.Within j) :
      x.Kept ok finished y where
  worker := hworker
  owed _ hj := Or.inr ⟨howed ▸ hj, fun _ => hwithin⟩

theorem Worker.Kept.refl {x : Worker} : x.Kept x := ⟨fun h => h, rfl, fun h => h⟩

namespace Kept

theorem of_eq (hworkers : t.workerCount = s.workerCount) (hworker : t.worker = s.worker)
    (hqueues : t.queueCount = s.queueCount) (hqueue : t.queue = s.queue)
    (hfinished : t.finished = s.finished) : Kept ok s t where
  workers := hworkers.ge
  worker _ := hworker ▸ .refl
  queues := hqueues.ge
  finished h := hfinished ▸ h
  queue _ := hqueue ▸ .of_eq rfl rfl fun h => h

theorem trans {u : Registry} (h : Kept ok s t) (k : Kept ok t u) : Kept ok s u where
  workers := h.workers.trans k.workers
  worker hw := by
    have hw' := hw.trans_le h.workers
    constructor
    · exact fun hx => (k.worker hw').stopped ((h.worker hw).stopped hx)
    · exact (k.worker hw').direct.trans (h.worker hw).direct
    · exact fun hx => (k.worker hw').opened ((h.worker hw).opened hx)
  queues := h.queues.trans k.queues
  finished hid := k.finished (h.finished hid)
  queue hq := by
    have hq' := hq.trans_le h.queues
    refine ⟨(k.queue hq').worker.trans (h.queue hq).worker, ?_⟩
    intro j hj
    rcases (h.queue hq).owed j hj with hfin | ⟨howed, hwithin⟩
    · exact Or.inl (k.finished hfin)
    rcases (k.queue hq').owed j howed with hfin | ⟨howed', hwithin'⟩
    · exact Or.inl hfin
    · exact Or.inr ⟨howed', fun hok hx => hwithin' hok (hwithin hok hx)⟩

theorem setCall : Kept ok s (s.setCall id call) := of_eq rfl rfl rfl rfl rfl

theorem endCall : Kept ok s (s.endCall id) := of_eq rfl rfl rfl rfl rfl

theorem dropWorker : Kept ok s (s.dropWorker key w) := by
  unfold Registry.dropWorker
  split <;> exact of_eq rfl rfl rfl rfl rfl

theorem setQueue {x : Queue} (hx : (s.queue q).Kept ok s.finished x) :
    Kept ok s (s.setQueue q x) where
  workers := le_rfl
  worker _ := .refl
  queues := le_rfl
  finished h := h
  queue {p} _ := by
    rw [queue_setQueue]
    split
    · next hpq => exact hpq ▸ hx
    · exact .of_eq rfl rfl fun h => h

theorem setWorker {x : Worker} (hx : (s.worker w).Kept x) : Kept ok s (s.setWorker w x) where
  workers := le_rfl
  worker {v} _ := by
    rw [worker_setWorker]
    split
    · next hvw => exact hvw ▸ hx
    · exact .refl
  queues := le_rfl
  finished h := h
  queue _ := .of_eq rfl rfl fun h => h

theorem resolveWorker :
    Kept ok s (s.resolveWorker c key direct).1 := by
  unfold Registry.resolveWorker
  split
  · exact of_eq rfl rfl rfl rfl rfl
  · refine ⟨Nat.le_succ _, ?_, le_rfl, fun h => h, fun _ => .of_eq rfl rfl fun h => h⟩
    intro v hv
    rw [worker_newWorker, if_neg hv.ne]
    exact .refl

theorem openQueue : Kept ok s (s.openQueue w key).1 := by
  unfold Registry.openQueue
  split
  · exact of_eq rfl rfl rfl rfl rfl
  · refine ⟨le_rfl, ?_, Nat.le_succ _, fun h => h, ?_⟩
    · intro v _
      rw [worker_newQueue]
      split
      · next hvw => exact hvw ▸ ⟨fun h => h, rfl, fun _ => rfl⟩
      · exact .refl
    · intro p hp
      rw [queue_newQueue, if_neg hp.ne]
      exact .of_eq rfl rfl fun h => h

theorem grant : Kept ok s (s.grant c job w) := by
  refine openQueue.trans (.trans (setQueue ?_) setCall)
  refine ⟨rfl, fun j hj => ?_⟩
  exact Or.inr ⟨List.mem_cons_of_mem _ hj, fun _ h => h⟩

theorem onIdle : Kept ok s (s.onIdle q) := by
  simp only [Registry.onIdle]
  split
  · exact setQueue (.of_eq rfl rfl fun h => h)
  · split
    · refine .trans (setWorker ?_) (setQueue ?_)
      · exact ⟨fun _ => rfl, rfl, fun h => h⟩
      · exact .of_eq rfl rfl fun h => h
    · refine .trans (setWorker ?_) (setQueue ?_)
      · exact ⟨fun h => h, rfl, fun h => h⟩
      · exact .of_eq rfl rfl fun h => h

/-- Only the job that is settled leaves the queue, and it has finished. -/
theorem settle : Kept ok s (s.settle q job) where
  workers := le_rfl
  worker _ := .refl
  queues := le_rfl
  finished h := List.mem_cons_of_mem _ h
  queue {p} _ := by
    refine ⟨?_, fun j hj => ?_⟩
    · refine (congrArg Queue.worker queue_setQueue).trans ?_
      split
      · next hpq => rw [hpq]
      · rfl
    by_cases hid : j.id = job.id
    · exact Or.inl (hid ▸ List.mem_cons_self)
    have hne : j ≠ job := fun h => hid (h ▸ rfl)
    refine Or.inr ?_
    by_cases hpq : p = q
    · subst hpq
      simpa [Registry.settle, Queue.Within, hne] using hj
    · simpa [Registry.settle, hpq, Queue.Within] using hj

end Kept

theorem accept_eq {x : Queue} {rest : List Job} {left : Bool} :
    s.accept x job rest left = { x with
      cmds := rest
      held := (s.accept x job rest left).held
      paged := (s.accept x job rest left).paged } := by
  unfold accept
  split_ifs <;> rfl

/-- Whatever the run loop does with a hand-off, an owed job can still be found, unless its row is in
flight soon after a page. -/
theorem accept_kept {x : Queue} {rest : List Job} {left : Bool} (hcmds : x.cmds = job :: rest) :
    x.Kept (x.recent = true → job.id ∉ s.inFlight) s.finished (s.accept x job rest left) := by
  refine ⟨by rw [accept_eq], fun j hj => ?_⟩
  by_cases hfin : j.id ∈ s.finished
  · exact Or.inl hfin
  refine Or.inr ⟨by rw [accept_eq]; exact hj, fun hok _ => ?_⟩
  unfold accept Queue.Within
  by_cases hjob : j = job
  · subst hjob
    have hback : j ∈ x.backlog := List.mem_append_left _ hj
    split_ifs with hheld hleft hpaged hdrop
    · exact Or.inr (Or.inl hheld)
    · exact Or.inr (Or.inr List.mem_cons_self)
    · refine Or.inr (Or.inr ?_)
      by_contra hnot
      exact hpaged ⟨hback, hnot⟩
    · exact (hdrop.2.elim hfin (hok hdrop.1)).elim
    · exact Or.inr (Or.inl List.mem_cons_self)
  · rename_i hin
    rw [Queue.Within, hcmds] at hin
    split_ifs <;> simp_all

theorem kept_step (h : Stepped c s e t) : Kept (s.timely e = true) s t := by
  cases h with
  | submit => exact .of_eq rfl rfl rfl rfl rfl
  | resolve => exact .trans .resolveWorker .setCall
  | refuse => exact .setCall
  | grant => exact .grant
  | reject => exact .endCall
  | handoff =>
    refine .trans (.setQueue ?_) .setCall
    refine .of_eq rfl rfl ?_
    intro j hj
    rcases hj with hj | hj
    · exact Or.inl (List.mem_append_left _ hj)
    · exact Or.inr hj
  | account => exact .of_eq rfl rfl rfl rfl rfl
  | dropStale => exact .trans .dropWorker .setCall
  | workerFor => exact .resolveWorker
  | mode => exact .setWorker ⟨fun h => h, rfl, fun h => h⟩
  | @attach q jobs hq =>
    refine .trans (.setQueue (q := q) ?_) (.of_eq rfl rfl rfl rfl rfl)
    exact .of_eq rfl rfl fun h => h
  | takeSpills =>
    refine .setQueue (.of_eq rfl rfl ?_)
    intro j hj
    exact hj.imp_right (Or.imp_right (List.mem_append_right _))
  | paged => exact .setQueue (.of_eq rfl rfl fun h => h)
  | elapse => exact .setQueue (.of_eq rfl rfl fun h => h)
  | leftInFlight => exact .of_eq rfl rfl rfl rfl rfl
  | take _ _ hcmds =>
    obtain ⟨hworker, howed⟩ := accept_kept (s := s) hcmds
    refine .setQueue ⟨hworker, fun j hj => (howed j hj).imp_right fun ⟨hj', hin⟩ => ⟨hj', ?_⟩⟩
    exact fun hok => hin fun hrecent => by simpa [timely, hrecent, hcmds] using hok
  | @load q id job =>
    refine .setQueue (.of_eq rfl rfl ?_)
    intro j hj
    rcases hj with hj | hj | hj
    · exact Or.inl hj
    · exact Or.inr (Or.inl (List.mem_cons_of_mem _ hj))
    by_cases hjob : j = job
    · exact Or.inr (Or.inl (hjob ▸ List.mem_cons_self))
    · exact Or.inr (Or.inr ((List.mem_erase_of_ne hjob).mpr hj))
  | finish => exact .settle
  | expire => exact .settle
  | exhaust => exact .setQueue (.of_eq rfl rfl fun h => h)
  | idle => exact .setQueue (.of_eq rfl rfl fun h => h)
  | check => exact .setQueue (.of_eq rfl rfl fun h => h)
  | onIdle => exact .onIdle
  | @notify q =>
    refine .trans .dropWorker (.setQueue ?_)
    rw [show (s.dropWorker _ _).queue = s.queue from by unfold dropWorker; split <;> rfl]
    exact .of_eq rfl rfl fun h => h
  | recheck => exact .setQueue (.of_eq rfl rfl fun h => h)

/-! ### The registry's map -/

theorem lookup_of_dropWorker {key' : String}
    (h : (s.dropWorker key w).workers.lookup key' = some v) :
    s.workers.lookup key' = some v := by
  unfold dropWorker at h
  split at h
  · rw [Assoc.lookup_erase_ite] at h
    split at h
    · cases h
    · exact h
  · exact h

theorem lookup_of_resolveWorker {key' : String}
    (h : (s.resolveWorker c key direct).1.workers.lookup key' = some v) :
    s.workers.lookup key' = some v ∨ s.workers.lookup key' = none ∧ s.workerCount ≤ v := by
  unfold resolveWorker at h
  split at h
  · exact .inl h
  · next hnone =>
    replace h := Assoc.lookup_insert_ite.symm.trans h
    split at h
    · next hkey =>
      cases h
      exact .inr ⟨hkey ▸ hnone, le_rfl⟩
    · exact .inl h

/-- A step registers only new workers, each under a key that has none. -/
theorem lookup_workers_step (h : Stepped c s e t) (ht : t.workers.lookup key = some v) :
    s.workers.lookup key = some v ∨ s.workers.lookup key = none ∧ s.workerCount ≤ v := by
  cases h with
  | resolve | workerFor => exact lookup_of_resolveWorker ht
  | dropStale | notify => exact .inl (lookup_of_dropWorker ht)
  | grant =>
    rw [grant_eq] at ht
    exact .inl ht
  | onIdle =>
    rw [onIdle_eq] at ht
    exact .inl ht
  | submit | refuse | reject | handoff | account | mode | leftInFlight | attach | takeSpills | paged
  | elapse | take | load | finish | expire | exhaust | idle | check | recheck => exact .inl ht

end Aquifer.Registry
