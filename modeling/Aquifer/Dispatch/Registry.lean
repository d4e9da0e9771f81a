import Aquifer.Dispatch.AccountQueue
import Aquifer.Dispatch.Budget

/-! The registry of URL workers, the queues of each worker and the enqueue calls in progress. Each
section under a lock is one step, and so is each step of a queue's supervise loop. -/
namespace Aquifer

/-- Where a queue's supervise loop stands: in `run`; back from it; about to call `onIdle`; in it,
with the worker stopped and the registry still to be told; back from it; returned. -/
inductive Registry.Loop
  | running
  | idled
  | retiring
  | notifying
  | checking
  | returned
deriving DecidableEq, Repr

/-- An account queue. Its backlog is kept as the jobs it counts: those that an enqueue call has
reserved (`owed`) and those that were attached on disk (`spilled`). They are on their way to the
queue, in the `cmds` buffer, in memory or on disk to be paged in; `spilling` says that the run loop
has jobs to page in, and `pending` are those it does not know of yet. `recent` is the window after a
page of the queue's own key. -/
structure Registry.Queue where
  worker : Nat := 0
  key : String := ""
  owed : List Job := []
  spilled : List Job := []
  cmds : List Job := []
  held : List Job := []
  paged : List Job := []
  pending : List Job := []
  spilling : Bool := false
  recent : Bool := false
  loop : Registry.Loop := .running
deriving DecidableEq, Repr

def Registry.Queue.backlog (x : Registry.Queue) : List Job := x.owed ++ x.spilled

/-- A URL worker. `direct` says that `WorkerFor` created it and not an enqueue, `opened` that it has
had a queue. -/
structure Registry.Worker where
  key : String := ""
  accountQueueMode : Bool := true
  stopped : Bool := false
  queues : Assoc String Nat := ∅
  direct : Bool := false
  opened : Bool := false

/-- What admission reads besides the queues: the worker's budget, the floor a shrink has left, and
the random draw. -/
structure Registry.Terms where
  maxBacklog : Int
  shrinkFloor : Nat := 0
  draw : ℚ := 0
deriving DecidableEq, Repr

/-- Where an enqueue call stands: about to resolve its worker; with the worker; with a slot reserved
on a queue; with the job handed over; or refused by a worker that has stopped. -/
inductive Registry.Call
  | start (job : Job)
  | resolved (job : Job) (worker : Nat)
  | reserved (job : Job) (queue : Nat)
  | handed (job : Job)
  | refused (job : Job) (worker : Nat)
deriving DecidableEq, Repr

structure UserLoad where
  jobs : Nat := 0
  webhooks : Nat := 0
deriving DecidableEq, Repr

/-- `userLoadTracker.users`. -/
abbrev UserLoads := Assoc String UserLoad

namespace UserLoads

def load (users : UserLoads) (user : String) : UserLoad := (users.lookup user).getD {}

def add (users : UserLoads) (job : Job) : UserLoads :=
  let load := users.load job.userID
  users.insert job.userID
    (if job.isWebhookDelivery then { load with webhooks := load.webhooks + 1 }
    else { load with jobs := load.jobs + 1 })

def done (users : UserLoads) (job : Job) : UserLoads :=
  match users.lookup job.userID with
  | none => users
  | some load =>
    let left := if job.isWebhookDelivery then { load with webhooks := load.webhooks - 1 }
      else { load with jobs := load.jobs - 1 }
    if left.jobs = 0 ∧ left.webhooks = 0 then users.erase job.userID
    else users.insert job.userID left

end UserLoads

/-- Workers and queues are numbered in the order they are created; the registry's map has the
current worker of each key. `accepted` has the jobs whose enqueue call returned success, `attached`
those that recovery has left on disk for a queue, `inFlight` those whose rows an older version has
left in flight. -/
structure Registry where
  workers : Assoc String Nat := ∅
  worker : Nat → Registry.Worker := fun _ => {}
  workerCount : Nat := 0
  queue : Nat → Registry.Queue := fun _ => {}
  queueCount : Nat := 0
  calls : Assoc String Registry.Call := ∅
  submitted : List String := []
  accepted : List Job := []
  attached : List Job := []
  inFlight : List String := []
  finished : List String := []
  users : UserLoads := ∅

inductive Registry.Event
  | submit (job : Job)
  | resolve (id : String)
  | reserve (id : String) (enforced : Option Registry.Terms)
  | handoff (id : String)
  | account (id : String)
  | dropStale (id : String)
  | workerFor (job : Job)
  | mode (w : Nat) (on : Bool)
  | leftInFlight (id : String)
  | attach (q : Nat) (jobs : List Job)
  | takeSpills (q : Nat)
  | paged (q : Nat)
  | elapse (q : Nat)
  | take (q : Nat) (left : Bool)
  | load (q : Nat) (id : String)
  | finish (q : Nat) (id : String)
  | expire (q : Nat) (id : String)
  | exhaust (q : Nat)
  | idle (q : Nat)
  | check (q : Nat)
  | onIdle (q : Nat)
  | notify (q : Nat)
  | recheck (q : Nat)
deriving DecidableEq, Repr

namespace Registry

variable (c : Routing) (s : Registry)

def setQueue (q : Nat) (x : Queue) : Registry := { s with queue := Function.update s.queue q x }

def setWorker (w : Nat) (x : Worker) : Registry := { s with worker := Function.update s.worker w x }

def setCall (id : String) (call : Call) : Registry := { s with calls := s.calls.insert id call }

def endCall (id : String) : Registry := { s with calls := s.calls.erase id }

def newWorker (key : String) (direct : Bool) : Registry :=
  { s with
    workers := s.workers.insert key s.workerCount
    worker := Function.update s.worker s.workerCount
      { key, accountQueueMode := c.accountQueueDefault, direct }
    workerCount := s.workerCount + 1 }

/-- `resolveWorkerLocked`: the worker of the key, created if there is none. -/
def resolveWorker (key : String) (direct : Bool) : Registry × Nat :=
  match s.workers.lookup key with
  | some w => (s, w)
  | none => (s.newWorker c key direct, s.workerCount)

/-- A registry entry goes if it still is this worker's. -/
def dropWorker (key : String) (w : Nat) : Registry :=
  if s.workers.lookup key = some w then { s with workers := s.workers.erase key } else s

def newQueue (w : Nat) (key : String) : Registry :=
  { s.setWorker w
      { s.worker w with queues := (s.worker w).queues.insert key s.queueCount, opened := true } with
    queue := Function.update s.queue s.queueCount { worker := w, key }
    queueCount := s.queueCount + 1 }

/-- The queue of the key on the worker, opened if there is none. -/
def openQueue (w : Nat) (key : String) : Registry × Nat :=
  match (s.worker w).queues.lookup key with
  | some q => (s, q)
  | none => (s.newQueue w key, s.queueCount)

/-- The slot of a job that is let in, on the queue it goes to. -/
def grant (job : Job) (w : Nat) : Registry :=
  let opened := s.openQueue w (c.queueKeyLocked (s.worker w).accountQueueMode job)
  let x := opened.1.queue opened.2
  (opened.1.setQueue opened.2 { x with owed := job :: x.owed }).setCall job.id
    (.reserved job opened.2)

def budget (w : Nat) (terms : Terms) : Budget where
  accountQueueMode := (s.worker w).accountQueueMode
  queues := (s.worker w).queues.mapVal fun q => (s.queue q).backlog.length
  maxBacklog := terms.maxBacklog
  shrinkFloor := terms.shrinkFloor

/-- Webhook deliveries and recovered jobs come in without a decision. -/
def admits (job : Job) (w : Nat) : Option Terms → Bool
  | none => true
  | some terms => ((s.budget w terms).fairDecision (c.jobQueueKey job) terms.draw).allowed

/-- `reserve`, under the worker's lock. -/
def reserve (job : Job) (w : Nat) (enforced : Option Terms) : Registry :=
  if (s.worker w).stopped then s.setCall job.id (.refused job w)
  else if s.admits c job w enforced then s.grant c job w
  else s.endCall job.id

/-- The send on `cmds`, which waits while the buffer is full. -/
def handoff (job : Job) (q : Nat) : Option Registry :=
  if (s.queue q).cmds.length < cmdsCap then
    some ((s.setQueue q { s.queue q with cmds := (s.queue q).cmds ++ [job] }).setCall job.id
      (.handed job))
  else none

/-- One step of the queue's goroutine, from one place in its loop to the next. -/
def move (q : Nat) (x : Queue) : Option Registry :=
  if q < s.queueCount then some (s.setQueue q x) else none

/-- The run loop takes a hand-off from `cmds`: not if the job is held already, not if it lies past
the cursor of the queue's own key on disk, and soon after a page not if its row is not queued. -/
def accept (x : Queue) (job : Job) (rest : List Job) (left : Bool) : Queue :=
  if job ∈ x.held then { x with cmds := rest }
  else if x.spilling && left then
    { x with
      cmds := rest
      paged := if job ∈ x.backlog ∧ job ∉ x.paged then job :: x.paged else x.paged }
  else if x.recent = true ∧ (job.id ∈ s.finished ∨ job.id ∈ s.inFlight) then
    { x with cmds := rest }
  else { x with cmds := rest, held := job :: x.held, paged := x.paged.erase job }

/-- A job leaves the queue for good; `onJobDone` counts it off. -/
def settle (q : Nat) (job : Job) : Registry :=
  let x := s.queue q
  { s.setQueue q { x with
      owed := x.owed.erase job
      spilled := x.spilled.erase job
      held := x.held.erase job
      paged := x.paged.erase job } with
    finished := job.id :: s.finished
    users := s.users.done job }

/-- The closure a queue calls when it is idle, under the worker's lock. -/
def onIdle (q : Nat) : Registry :=
  let x := s.queue q
  let w := s.worker x.worker
  if w.queues.lookup x.key ≠ some q ∨ x.backlog ≠ [] ∨ x.cmds ≠ [] then
    s.setQueue q { x with loop := .checking }
  else
    let left := w.queues.erase x.key
    if left.entries = [] then
      (s.setWorker x.worker { w with queues := left, stopped := true }).setQueue q
        { x with loop := .notifying }
    else
      (s.setWorker x.worker { w with queues := left }).setQueue q { x with loop := .checking }

def registered (q : Nat) : Bool :=
  (s.worker (s.queue q).worker).queues.lookup (s.queue q).key = some q

def step : Event → Option Registry
  | .submit job =>
    if job.id ∈ s.submitted then none
    else some ({ s with submitted := job.id :: s.submitted }.setCall job.id (.start job))
  | .resolve id =>
    match s.calls.lookup id with
    | some (.start job) =>
      let (t, w) := s.resolveWorker c (c.workerKey job) false
      some (t.setCall id (.resolved job w))
    | _ => none
  | .reserve id enforced =>
    match s.calls.lookup id with
    | some (.resolved job w) => some (s.reserve c job w enforced)
    | _ => none
  | .handoff id =>
    match s.calls.lookup id with
    | some (.reserved job q) => s.handoff job q
    | _ => none
  -- the call returns success once the job is counted
  | .account id =>
    match s.calls.lookup id with
    | some (.handed job) =>
      some ({ s with accepted := job :: s.accepted, users := s.users.add job }.endCall id)
    | _ => none
  | .dropStale id =>
    match s.calls.lookup id with
    | some (.refused job w) =>
      some ((s.dropWorker (c.workerKey job) w).setCall id (.start job))
    | _ => none
  | .workerFor job => some (s.resolveWorker c (c.workerKey job) true).1
  | .mode w on =>
    if w < s.workerCount then some (s.setWorker w { s.worker w with accountQueueMode := on })
      else none
  | .leftInFlight id =>
    if id ∈ s.submitted then none else some { s with inFlight := id :: s.inFlight }
  -- the queue was looked up under the worker's lock, which is released by now
  | .attach q jobs =>
    let x := s.queue q
    if q < s.queueCount ∧ (jobs.map Job.id).Nodup ∧ ∀ j ∈ jobs, j.id ∉ s.submitted then
      some { s.setQueue q
          { x with spilled := jobs ++ x.spilled, pending := jobs ++ x.pending } with
        submitted := jobs.map Job.id ++ s.submitted
        attached := jobs ++ s.attached }
    else none
  | .takeSpills q =>
    let x := s.queue q
    if x.loop = .running then
      s.move q { x with
        paged := x.pending ++ x.paged
        pending := []
        spilling := x.spilling || !x.pending.isEmpty }
    else none
  | .paged q =>
    let x := s.queue q
    if x.loop = .running ∧ x.spilling then s.move q { x with recent := true } else none
  | .elapse q => s.move q { s.queue q with recent := false }
  | .take q left =>
    match (s.queue q).loop, (s.queue q).cmds with
    | .running, job :: rest => s.move q (s.accept (s.queue q) job rest left)
    | _, _ => none
  -- a page can also bring a job whose hand-off is still on its way
  | .load q id =>
    let x := s.queue q
    match x.backlog.find? fun j => j.id = id with
    | some job =>
      if x.loop = .running ∧ x.spilling ∧ job ∉ x.held ∧ job ∉ x.pending then
        s.move q { x with held := job :: x.held, paged := x.paged.erase job }
      else none
    | none => none
  | .finish q id =>
    match (s.queue q).held.find? fun j => j.id = id with
    | some job =>
      if q < s.queueCount ∧ (s.queue q).loop = .running then some (s.settle q job) else none
    | none => none
  -- the sweep fails jobs on disk whose deadline has passed
  | .expire q id =>
    match (s.queue q).backlog.find? fun j => j.id = id with
    | some job =>
      if q < s.queueCount ∧ (s.queue q).loop = .running ∧ (s.queue q).spilling ∧
          job ∉ (s.queue q).held ∧ job ∉ (s.queue q).pending then
        some (s.settle q job)
      else none
    | none => none
  | .exhaust q =>
    let x := s.queue q
    if x.loop = .running ∧ x.paged = [] then s.move q { x with spilling := false } else none
  | .idle q =>
    let x := s.queue q
    if x.loop = .running ∧ x.held = [] ∧ x.spilling = false then s.move q { x with loop := .idled }
    else none
  | .check q =>
    let x := s.queue q
    if x.loop = .idled then
      s.move q { x with loop := if x.cmds = [] then .retiring else .running }
    else none
  | .onIdle q =>
    if q < s.queueCount ∧ (s.queue q).loop = .retiring then some (s.onIdle q) else none
  | .notify q =>
    let x := s.queue q
    if x.loop = .notifying then
      (s.dropWorker (s.worker x.worker).key x.worker).move q { x with loop := .checking }
    else none
  | .recheck q =>
    let x := s.queue q
    if x.loop = .checking then
      s.move q { x with loop := if x.backlog ≠ [] ∨ x.cmds ≠ [] then .running else .returned }
    else none

end Registry

end Aquifer
