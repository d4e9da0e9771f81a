import Aquifer.Storage
import Aquifer.Lib.Trace
import Mathlib.Data.Finset.Basic

/-! One account queue: its run loop, the attempts it starts, hand-offs and paged recovery. -/
namespace Aquifer

/-- What a queue is created with. -/
structure QueueConfig where
  env : Env
  key : String
  upstream : String
  configuredMaxConc : Int
  pageSize : Nat
  pageSize_pos : 0 < pageSize
  deadAfter : Int := 0

/-- `StoreQueueKey` of the queue: the key its jobs are stored under. -/
def QueueConfig.storeKey (c : QueueConfig) : String := c.upstream ++ "|" ++ c.key

/-- Durations of the source, in nanoseconds. -/
def spillSweepEvery : Int := 60000000000
def recentPageWindow : Int := 300000000000
def refillRetryEvery : Int := 1000000000
def deadTargetSweepEvery : Int := 2000000000

/-- Go's zero `time.Time`, long before any clock reading. -/
def zeroTime : Time := -62135596800000000000

/-- Capacities of the two channels into the run loop. -/
def cmdsCap : Nat := 1000
def doneCap : Nat := 100

/-- A run of the queue's jobs still on disk: those stored under `key` after the cursor. -/
structure SpillSource where
  key : String
  after : PageCursor := {}
  reserved : Nat := 0
  consumed : Nat := 0
  cutoff : Int := 0
  consumedThrough : PageCursor := {}
deriving DecidableEq, Repr

def SpillSource.counts (src : SpillSource) (job : Job) : Bool :=
  job.createdAt < src.cutoff && !src.consumedThrough.covers job && src.consumed < src.reserved

/-- A source started over after a panic; what it already handed over keeps its count. -/
def SpillSource.restart (src : SpillSource) : SpillSource :=
  { src with
    consumedThrough :=
      if src.consumedThrough.covers { id := src.after.id, createdAt := src.after.createdAt } then
        src.consumedThrough
      else src.after
    after := {} }

/-- A job backing off before a retry. -/
structure WaitingJob where
  job : Job
  time : Time
  reason : String
deriving DecidableEq, Repr

/-- What an attempt reports about its job: the rest of a `jobDoneMsg` with `completed` set.
`retry` is when to try again and why the attempt failed. -/
structure Outcome where
  maxConcurrent : Option Int := none
  failed : Bool := false
  reached : Bool := false
  isLocal : Bool := false
  retry : Option (Time × String) := none
deriving DecidableEq, Repr

/-- A message on the `done` channel; `Throttle` sends one that completes nothing. -/
inductive DoneMsg
  | throttle
  | attempt (job : Job) (o : Outcome)
deriving DecidableEq, Repr

def DoneMsg.job : DoneMsg → Option Job
  | .throttle => none
  | .attempt job _ => some job

/-- An `execute` goroutine: its job, and what it will report once its attempt is over. -/
structure Attempt where
  job : Job
  outcome : Option Outcome := none
deriving DecidableEq, Repr

/-- What a queue did to a job since its loop started, newest first in the log. `swept` stands for
all that `sweepSpilled` does to a job it fails on disk, which is never held in memory. -/
inductive Note
  | accepted (job : Job)
  | dispatched (job : Job) (now : Time)
  | terminal (id : String) (status : Status) (reason : String)
  | released (id : String)
  | served (id : String)
  | jobDone (id : String)
  | swept (id : String)
deriving DecidableEq, Repr

/-- A sweep under way: its reading of the clock, the source it is at and its cursor there. -/
structure Sweep where
  now : Time
  index : Nat
  cursor : PageCursor
deriving DecidableEq, Repr

/-- The queue, the run loop's locals, the hand-offs on their way to it and the store. A hand-off
is in `reserved` until it has written its queue key, then in `stored` until it is sent. -/
structure AccountQueue where
  queue : List Job := []
  waiting : List WaitingJob := []
  inFlight : Int := 0
  maxConc : Int
  spillPending : List SpillSource := []
  spills : List SpillSource := []
  present : Finset String := ∅
  pagedOwnUntil : Time := zeroTime
  refillRetryAt : Time := zeroTime
  lastSpillSweep : Time := zeroTime
  lastDeadSweep : Time := zeroTime
  failingSince : Int := 0
  nextDeadline : Int := 0
  backlog : Int := 0
  served : Int := 0
  reserved : List Job := []
  stored : List Job := []
  cmds : List Job := []
  done : List DoneMsg := []
  running : List Attempt := []
  sweep : Option Sweep := none
  alive : Bool := true
  stopping : Bool := false
  store : Store
  log : List Note := []

/-! ### One attempt -/

/-- What the target answers; `cancelled` is a request cut off by the queue stopping. -/
inductive Response
  | error (reason : String) (isLocal : Bool)
  | answer (code : Int) (retryAfter : Option Int) (maxConcurrent : Option Int)
  | cancelled
deriving DecidableEq, Repr

/-- The clock readings, the answer and the random backoff one `execute` meets. -/
structure Exchange where
  startedAt : Time
  response : Response
  now : Time
  backoff : Int := 0
deriving DecidableEq, Repr

/-- The store write an attempt ends in. -/
inductive Effect
  | terminal (status : Status) (reason : String)
  | retry (attempts : Int)
  | requeue
deriving DecidableEq, Repr

def retryableStatus (code : Int) : Bool := 500 ≤ code || code = 429 || code = 408

/-- `retryDelay`: a Retry-After of the target, else the backoff. -/
def retryDelay (retryAfter : Option Int) (backoff : Int) : Int :=
  match retryAfter with
  | some secs => if 0 ≤ secs then int64 (secs * 1000000000) else backoff
  | none => backoff

/-- The tail of `execute` after a retryable failure. -/
def executeFailed (job : Job) (x : Exchange) (reason : String)
    (retryAfter maxConcurrent : Option Int)
    (isLocal : Bool) : Effect × Job × Outcome :=
  let retryAt := x.now + retryDelay retryAfter x.backoff
  if !job.hasRetriesLeft || !(retryAt < job.retryDeadline) then
    (.terminal .failed
      (if job.hasRetriesLeft then "retry_window_exhausted: " ++ reason else reason),
      job, { maxConcurrent, isLocal, failed := true })
  else
    (.retry (job.attempts + 1), { job with attempts := job.attempts + 1 },
      { maxConcurrent, isLocal, failed := true, retry := some (retryAt, reason) })

/-- `execute`: exactly one attempt. -/
def execute (job : Job) (x : Exchange) : Effect × Job × Outcome :=
  if job.executionExpired x.startedAt then
    (.terminal .failed "execution_deadline_exceeded", job, {})
  else
    match x.response with
    | .cancelled => (.requeue, job, {})
    | .error reason isLocal => executeFailed job x reason none none isLocal
    | .answer code retryAfter maxConcurrent =>
      if retryableStatus code then
        executeFailed job x ("upstream returned " ++ toString code) retryAfter maxConcurrent false
      else
        (.terminal .completed "", job, { maxConcurrent, reached := true })

namespace AccountQueue

variable (c : QueueConfig)

/-! ### Bookkeeping -/

def releaseBacklog (q : AccountQueue) (n : Nat) : AccountQueue :=
  { q with backlog := q.backlog - n }

/-- The calls made for a job that leaves the queue for good: `releaseBacklog`, `drop`,
`markServed` and `onJobDone`. -/
def settle (q : AccountQueue) (id : String) : AccountQueue :=
  { q with
    backlog := q.backlog - 1
    present := q.present.erase id
    served := q.served + 1
    log := .jobDone id :: .served id :: .released id :: q.log }

/-- The terminal write of `failJob`, `failQueuedJob` and a completed `execute`. -/
def writeTerminal (q : AccountQueue) (id : String) (status : Status) (reason : String)
    (now : Time) : AccountQueue :=
  { q with
    store := q.store.updateStatus id status now
    log := .terminal id status reason :: q.log }

/-- The reason `failExpiredJob` gives. -/
def expiredReason (job : Job) (lastReason : String) (now : Time) : String :=
  if job.executionExpired now then "execution_deadline_exceeded"
  else if lastReason ≠ "" then "retry_window_exhausted: " ++ lastReason
  else "queued_ttl_exceeded"

/-- Fails a job that is queued or waiting, not in flight, and lets it go. -/
def failHeld (q : AccountQueue) (id reason : String) (now : Time) : AccountQueue :=
  (q.settle id).writeTerminal id .failed reason now

def trackDeadline (q : AccountQueue) (job : Job) : AccountQueue :=
  if 0 < job.queueDeadline ∧ (q.nextDeadline = 0 ∨ job.queueDeadline < q.nextDeadline) then
    { q with nextDeadline := job.queueDeadline }
  else q

/-- `hold`, and the append to the queue that follows it. -/
def hold (q : AccountQueue) (job : Job) : AccountQueue :=
  trackDeadline
    { q with
      present := insert job.id q.present
      queue := q.queue ++ [job]
      log := .accepted job :: q.log } job

/-! ### Deadlines and dead targets -/

def dropExpiredJobs (q : AccountQueue) (now : Time) : AccountQueue :=
  if q.queue = [] then { q with nextDeadline := 0 }
  else if q.nextDeadline = 0 ∨ unixMilli now < q.nextDeadline then q
  else
    q.queue.foldl
      (fun q job =>
        if job.queueExpired now then q.failHeld job.id (expiredReason job "" now) now
        else trackDeadline { q with queue := q.queue ++ [job] } job)
      { q with nextDeadline := 0, queue := [] }

def dropExpiredWaiting (q : AccountQueue) (now : Time) : AccountQueue :=
  q.waiting.foldl
    (fun q w =>
      if w.job.queueExpired now then q.failHeld w.job.id (expiredReason w.job w.reason now) now
      else { q with waiting := q.waiting ++ [w] })
    { q with waiting := [] }

def failingFor (q : AccountQueue) (now : Time) : Int :=
  if q.failingSince = 0 then 0 else now - ofMilli q.failingSince

def deadTargetReason (q : AccountQueue) (now : Time) : String :=
  "target_unavailable: no successful response for " ++ toString (q.failingFor now / 1000000000) ++
    "s"

/-- A job as old as the dead-target limit. -/
def waitedOut (job : Job) (cutoff : Int) : Bool := 0 < job.createdAt && job.createdAt ≤ cutoff

/-- The two scans of `failDeadTarget`, over the queue and over the waiting jobs. -/
def failDeadQueue (q : AccountQueue) (cutoff : Int) (reason : String) (now : Time) : AccountQueue :=
  q.queue.foldl
    (fun q job =>
      if waitedOut job cutoff then q.failHeld job.id reason now
      else { q with queue := q.queue ++ [job] })
    { q with queue := [] }

def failDeadWaiting (q : AccountQueue) (cutoff : Int) (reason : String) (now : Time) :
    AccountQueue :=
  q.waiting.foldl
    (fun q w =>
      if waitedOut w.job cutoff then q.failHeld w.job.id reason now
      else { q with waiting := q.waiting ++ [w] })
    { q with waiting := [] }

def failDeadTarget (q : AccountQueue) (now : Time) : AccountQueue :=
  if c.deadAfter ≤ 0 ∨ q.failingFor now < c.deadAfter ∨
      now - q.lastDeadSweep < deadTargetSweepEvery then q
  else
    let cutoff := unixMilli (now - c.deadAfter)
    let reason := q.deadTargetReason now
    ({ q with lastDeadSweep := now }.failDeadQueue cutoff reason now).failDeadWaiting
      cutoff reason now

/-! ### Paged recovery -/

def takeSpills (q : AccountQueue) : AccountQueue :=
  { q with spills := q.spills ++ q.spillPending, spillPending := [] }

def reloadAfterPanic (q : AccountQueue) (now : Time) : AccountQueue :=
  let q := q.takeSpills
  let spills := q.spills.map SpillSource.restart
  { q with
    spills := if spills.any (·.key = c.storeKey) then spills else spills ++ [{ key := c.storeKey }]
    present := ∅
    pagedOwnUntil := now + recentPageWindow }

def ownSpill (q : AccountQueue) : Option PageCursor :=
  (q.spills.find? (·.key = c.storeKey)).map SpillSource.after

/-- `acceptHandoff`; `clock` is the store's own reading in `GetJob`. -/
def acceptHandoff (q : AccountQueue) (job : Job) (now clock : Time) : Bool :=
  if job.id ∈ q.present then false
  else if (q.ownSpill c).any fun after => !after.covers job then false
  else if now < q.pagedOwnUntil then
    (q.store.getJob job.id clock).all fun stored => stored.status = .queued
  else true

/-- Whether the source at index `i` counts the job. -/
def countsAt (q : AccountQueue) (i : Nat) (job : Job) : Bool :=
  (q.spills[i]?).any fun src => src.counts job

/-- The consumption of a counted job by the source at index `i`. -/
def consume (q : AccountQueue) (i : Nat) (job : Job) : AccountQueue :=
  if q.countsAt i job then
    { q with spills := q.spills.modify i fun src => { src with consumed := src.consumed + 1 } }
  else q

/-- The body of `refill`'s loop over a page of the first source. A job already held has its
own count, so the reserved one is dropped. -/
def loadJob (q : AccountQueue) (job : Job) : AccountQueue :=
  if job.id ∈ q.present then
    if q.countsAt 0 job then (q.consume 0 job).releaseBacklog 1 else q
  else (q.consume 0 job).hold job

/-- Moves the cursor of the first source to the last job of the page it loaded. -/
def moveCursor (q : AccountQueue) (last : Job) (now : Time) : AccountQueue :=
  { q with
    spills := q.spills.modify 0 fun src => { src with after := cursorAt last }
    pagedOwnUntil :=
      if (q.spills.head?.map SpillSource.key) = some c.storeKey then now + recentPageWindow
      else q.pagedOwnUntil }

def finishSpill (q : AccountQueue) : AccountQueue :=
  match q.spills with
  | [] => q
  | src :: rest => { q with spills := rest }.releaseBacklog (src.reserved - src.consumed)

/-- One turn of `refill`'s loop: the next page of the first source. -/
def refillPage (q : AccountQueue) (now clock : Time) : AccountQueue :=
  match q.spills with
  | [] => q
  | src :: _ =>
    let page := q.store.queuedPage src.key src.after 0 c.pageSize clock
    let q := page.foldl loadJob q
    let q := match page.getLast? with
      | some last => q.moveCursor c last now
      | none => q
    if page.length < c.pageSize then q.finishSpill else q

def held (q : AccountQueue) : Int := q.queue.length + q.waiting.length + q.inFlight

/-- `refill` reads another page. -/
def refillDue (q : AccountQueue) (now : Time) : Bool :=
  !(now < q.refillRetryAt) && q.held < max (c.pageSize / 4 : Nat) 1 && q.spills ≠ []

/-- The place a sweep starts at in the source at index `i`, if there is one. -/
def sweepAt (q : AccountQueue) (now : Time) (i : Nat) : Option Sweep :=
  (q.spills[i]?).map fun src => ⟨now, i, src.after⟩

/-- The body of `sweepSpilled`'s loop over a page of the source at index `i`. -/
def sweepJob (i : Nat) (now : Time) (q : AccountQueue) (job : Job) : AccountQueue :=
  if job.id ∈ q.present ∨ job.queueExpired now = false then q
  else
    let q := q.consume i job
    { q with
      backlog := q.backlog - 1
      served := q.served + 1
      store := q.store.updateStatus job.id .failed now
      log := .swept job.id :: q.log }

def sweepPage (q : AccountQueue) (w : Sweep) (clock : Time) : AccountQueue :=
  match q.spills[w.index]? with
  | none => { q with sweep := none }
  | some src =>
    let page := q.store.queuedPage src.key w.cursor (unixMilli w.now - queuedTTL) c.pageSize clock
    let q := page.foldl (sweepJob w.index w.now) q
    match page.getLast? with
    | some last =>
      if page.length < c.pageSize then { q with sweep := q.sweepAt w.now (w.index + 1) }
      else { q with sweep := some { w with cursor := cursorAt last } }
    | none => { q with sweep := q.sweepAt w.now (w.index + 1) }

/-! ### The loop's other sections -/

/-- Dispatch of the head of the queue: a concurrency slot is free and the job may be sent. -/
def dispatch (q : AccountQueue) (now : Time) : Option AccountQueue :=
  match q.queue with
  | [] => none
  | job :: rest =>
    if q.inFlight < q.maxConc ∧ job.queueExpired now = false then
      some { q with
        queue := rest
        inFlight := q.inFlight + 1
        running := q.running ++ [{ job }]
        log := .dispatched job now :: q.log }
    else none

def recvCmd (q : AccountQueue) (now clock : Time) : Option AccountQueue :=
  match q.cmds with
  | [] => none
  | job :: rest =>
    let q := { q with cmds := rest }
    if q.acceptHandoff c job now clock then some (q.hold job) else some q

def applyEffect (q : AccountQueue) (id : String) (now : Time) : Effect → AccountQueue
  | .terminal status reason => q.writeTerminal id status reason now
  | .retry attempts => { q with store := q.store.recordRetry id attempts }
  | .requeue => { q with store := q.store.updateStatus id .queued now }

/-- `targetHealth` hears an attempt's outcome. -/
def hear (q : AccountQueue) (o : Outcome) (now : Time) : AccountQueue :=
  if o.failed && !o.isLocal then
    { q with failingSince := if q.failingSince = 0 then unixMilli now else q.failingSince }
  else if o.reached then { q with failingSince := 0 }
  else q

/-- A response may lower or raise the concurrency limit, never past the configured one. -/
def setMaxConc (q : AccountQueue) (o : Outcome) : AccountQueue :=
  match o.maxConcurrent with
  | some n => if 0 < n then { q with maxConc := min n c.configuredMaxConc } else q
  | none => q

def endAttempt (q : AccountQueue) (job : Job) (o : Outcome) : AccountQueue :=
  match o.retry with
  | some (time, reason) =>
    { q with inFlight := q.inFlight - 1, waiting := q.waiting ++ [{ job, time, reason }] }
  | none => { q with inFlight := q.inFlight - 1 }.settle job.id

def recvReport (q : AccountQueue) (job : Job) (o : Outcome) (now : Time) : AccountQueue :=
  ((q.endAttempt job o).hear o now).setMaxConc c o

/-- The retry timer: waiting jobs whose time has come go back to the queue. -/
def retryDue (q : AccountQueue) (now : Time) : AccountQueue :=
  q.waiting.foldl
    (fun q w =>
      if now < w.time then { q with waiting := q.waiting ++ [w] }
      else trackDeadline { q with queue := q.queue ++ [w.job] } w.job)
    { q with waiting := [] }

/-- `supervise` after the idle timer ended `run`: it restarts unless nothing is owed. -/
def idle (q : AccountQueue) : Option AccountQueue :=
  if q.queue = [] ∧ q.inFlight = 0 ∧ q.waiting = [] ∧ q.spills = [] then
    if q.cmds = [] ∧ q.backlog ≤ 0 then some { q with alive := false }
    else some { q with maxConc := c.configuredMaxConc }
  else none

/-- `supervise` after a panic in `run`: the loop's locals are gone, and the log starts over with
the next loop. -/
def panic (q : AccountQueue) (now : Time) : AccountQueue :=
  if q.stopping then { q with alive := false }
  else
    reloadAfterPanic c
      { q with
        queue := []
        waiting := []
        inFlight := 0
        maxConc := c.configuredMaxConc
        sweep := none
        log := [] } now

end AccountQueue

/-- A store write by somebody else. -/
inductive StoreOp
  | checkOrInsert (job : Job) (now : Time)
  | deleteJob (id : String)
  | deleteExpired (now : Time)
  | setQueueKey (id key : String)
  | updateStatus (id : String) (status : Status) (now : Time)
deriving DecidableEq, Repr

def StoreOp.apply (env : Env) (st : Store) : StoreOp → Store
  | .checkOrInsert job now => (st.checkOrInsert env job now).1
  | .deleteJob id => st.deleteJob id
  | .deleteExpired now => st.deleteExpired now
  | .setQueueKey id key => st.setQueueKey id key
  | .updateStatus id status now => st.updateStatus id status now

/-- The id of the row an operation may add. -/
def StoreOp.insertedID : StoreOp → Option String
  | .checkOrInsert job _ => some job.id
  | _ => none

/-- What can happen next: a step of a hand-off, of an attempt, of the run loop, or elsewhere.
The loop's sections may follow each other in any order, which allows more than the source. -/
inductive Event
  | reserve (job : Job)
  | setKey (job : Job)
  | send (job : Job)
  | attachSpill (key : String) (after : PageCursor) (remaining : Nat) (cutoff : Int)
  | throttle
  | external (op : StoreOp)
  | execute (i : Nat) (x : Exchange)
  | report (i : Nat)
  | takeSpills
  | refillPage (now clock : Time)
  | refillFail (now : Time)
  | dropExpiredJobs (now : Time)
  | dropExpiredWaiting (now : Time)
  | failDeadTarget (now : Time)
  | dispatch (now : Time)
  | recvCmd (now clock : Time)
  | recvDone (now : Time)
  | retryDue (now : Time)
  | sweepStart (now : Time)
  | sweepPage (clock : Time)
  | sweepFail
  | idle
  | panic (now : Time)
  | stop
  | stopLoop
  | stopHandoff (job : Job)
  | stopReport (i : Nat)
deriving DecidableEq, Repr

/-- The run loop does not panic and nobody stops the queue. -/
def Event.calm : Event → Bool
  | .panic _ | .stop => false
  | _ => true

namespace AccountQueue

variable (c : QueueConfig)

def new (store : Store) : AccountQueue := { maxConc := c.configuredMaxConc, store }

/-- The steps of goroutines other than the run loop. -/
def stepOutside (q : AccountQueue) : Event → Option AccountQueue
  | .reserve job => some { q with reserved := q.reserved ++ [job], backlog := q.backlog + 1 }
  | .setKey job =>
    if job ∈ q.reserved then
      some { q with
        reserved := q.reserved.erase job
        stored := q.stored ++ [job]
        store := q.store.setQueueKey job.id c.storeKey }
    else none
  | .send job =>
    if job ∈ q.stored ∧ q.cmds.length < cmdsCap then
      some { q with stored := q.stored.erase job, cmds := q.cmds ++ [job] }
    else none
  | .attachSpill key after remaining cutoff =>
    some { q with
      backlog := q.backlog + remaining
      spillPending := q.spillPending ++ [{ key, after, reserved := remaining, cutoff }] }
  | .throttle =>
    if q.done.length < doneCap then some { q with done := q.done ++ [.throttle] } else some q
  | .external op => some { q with store := op.apply c.env q.store }
  | .execute i x =>
    match q.running[i]? with
    | some ⟨job, none⟩ =>
      if x.response = .cancelled → q.stopping = true then
        some { q.applyEffect job.id x.now (Aquifer.execute job x).1 with
          running := q.running.set i
            ⟨(Aquifer.execute job x).2.1, some (Aquifer.execute job x).2.2⟩ }
      else none
    | _ => none
  | .report i =>
    match q.running[i]? with
    | some ⟨job, some o⟩ =>
      if q.done.length < doneCap then
        some { q with running := q.running.eraseIdx i, done := q.done ++ [.attempt job o] }
      else none
    | _ => none
  | .stop => some { q with stopping := true }
  | .stopHandoff job =>
    if q.stopping ∧ job ∈ q.stored then
      some ({ q with stored := q.stored.erase job }.releaseBacklog 1)
    else none
  | .stopReport i =>
    if q.stopping ∧ (q.running[i]?).any (·.outcome.isSome) then
      some { q with running := q.running.eraseIdx i }
    else none
  | _ => none

def stepLoop (q : AccountQueue) : Event → Option AccountQueue
  | .takeSpills => some q.takeSpills
  | .refillPage now clock => if q.refillDue c now then some (q.refillPage c now clock) else none
  | .refillFail now =>
    if q.refillDue c now then some { q with refillRetryAt := now + refillRetryEvery } else none
  | .dropExpiredJobs now => some (q.dropExpiredJobs now)
  | .dropExpiredWaiting now => some (q.dropExpiredWaiting now)
  | .failDeadTarget now => some (q.failDeadTarget c now)
  | .dispatch now => q.dispatch now
  | .recvCmd now clock => q.recvCmd c now clock
  | .recvDone now =>
    match q.done with
    | [] => none
    | .throttle :: rest => some { q with done := rest }
    | .attempt job o :: rest => some (recvReport c { q with done := rest } job o now)
  | .retryDue now => some (q.retryDue now)
  | .sweepStart now =>
    if q.spills = [] ∨ now - q.lastSpillSweep < spillSweepEvery then some q
    else some { q with lastSpillSweep := now, sweep := q.sweepAt now 0 }
  | .idle => q.idle c
  | .panic now => some (q.panic c now)
  | .stopLoop => if q.stopping then some { q with backlog := 0, alive := false } else none
  | _ => none

/-- The steps of a sweep under way; the loop does nothing else meanwhile. -/
def stepSweep (q : AccountQueue) (w : Sweep) : Event → Option AccountQueue
  | .sweepPage clock => some (q.sweepPage c w clock)
  | .sweepFail => some { q with sweep := q.sweepAt w.now (w.index + 1) }
  | .panic now => some (q.panic c now)
  | _ => none

def step (q : AccountQueue) (e : Event) : Option AccountQueue :=
  (q.stepOutside c e).or
    (if q.alive then
      match q.sweep with
      | some w => q.stepSweep c w e
      | none => q.stepLoop c e
    else none)

/-! ### What the queue answers for -/

/-- The jobs in flight: attempts still running, and reports the loop has not read. -/
def inFlightJobs (q : AccountQueue) : List Job :=
  q.running.map Attempt.job ++ q.done.filterMap DoneMsg.job

/-- The jobs held in memory: queued, waiting to retry or in flight. -/
def heldJobs (q : AccountQueue) : List Job :=
  q.queue ++ q.waiting.map WaitingJob.job ++ q.inFlightJobs

def heldIds (q : AccountQueue) : List String := q.heldJobs.map Job.id

/-- The hand-offs under way: reserved, stored under the queue's key, or buffered in `cmds`. -/
def handOffs (q : AccountQueue) : List Job := q.reserved ++ q.stored ++ q.cmds

def sources (q : AccountQueue) : List SpillSource := q.spills ++ q.spillPending

/-! ### A small queue, for concrete runs -/

/-- A queue of two slots that pages its disk jobs one at a time. -/
def smallConfig : QueueConfig where
  env := { hashKey := fun s => s }
  key := "__shared__"
  upstream := "api"
  configuredMaxConc := 2
  pageSize := 1
  pageSize_pos := Nat.one_pos

/-- Two pending jobs under the queue key an older version stored. -/
def smallJob (n : Nat) : Job := { id := toString n, createdAt := n }

def smallStore (status : Status) : Store where
  rows := [1, 2].map fun n =>
    { job := { smallJob n with status }, hash := toString n, queueKey := "__shared__",
      expiresAt := 1000 }
  ids_nodup := by cases status <;> decide
  alts_nodup := by cases status <;> decide

def success : Exchange := { startedAt := 0, response := .answer 200 none none, now := 0 }

end AccountQueue

end Aquifer
