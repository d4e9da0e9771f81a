import Aquifer.Storage
import Aquifer.Storage.Journal
import Aquifer.Storage.Keys

/-! The Pebble store: job records, the three indexes kept over them by hand, the running counts and
the drain journal. -/
namespace Aquifer

structure Result where
  jobID : String
  status : Status
  responseStatus : Int := 0
  contentType : String := ""
  body : String := ""
  bodyTruncated : Bool := false
  recordedAt : Int := 0
  source : String := ""
deriving DecidableEq, Repr

/-- `pebbleRecord`, as it is decoded. -/
structure Record where
  job : Job
  queueKey : String := ""
  expiresAt : Int
  result : Option Result := none
deriving DecidableEq, Repr

/-- As `New` builds it, also for a webhook delivery: queued, and a cached hash is its own. -/
def Job.made (env : Env) (j : Job) : Bool :=
  j.status = .queued &&
    j.idempotencyHash env = Aquifer.dedupHash env j.userID j.idempotentKey j.idempotencyScope

/-- What is written of a job: the cached hash is not serialised. -/
def Job.encoded (j : Job) : Job := { j with dedupHash := "" }

namespace Record

def hash (env : Env) (r : Record) : String := r.job.idempotencyHash env

def pending (r : Record) : Bool := r.job.status.pending

def live (r : Record) (now : Time) : Bool := unixMilli now < r.expiresAt

/-- A record after `UpdateStatus` and after `RecordRetry`. -/
def withStatus (r : Record) (status : Status) (now : Time) : Record :=
  { r with
    job := { r.job with status := status }
    expiresAt := expiresAtFor r.job status now }

def withRetry (r : Record) (attempts : Int) : Record :=
  { r with job := { r.job with attempts := attempts, status := .queued } }

end Record

/-- What is on disk: the key families, the two index markers and the drain journal. -/
structure Disk where
  jobs : KeySpace String Record := {}
  idem : KeySpace String String := {}
  exp : KeySpace Key Unit := {}
  qk : KeySpace Key Unit := {}
  expIndexMarker : Bool := false
  queueIndexMarker : Bool := false
  journal : Journal := {}
deriving DecidableEq

namespace Disk

def empty : Disk := {}

/-- What `forEachJobIncludingExpired` and `forEachJob` visit. -/
def records (d : Disk) : List Record := d.jobs.entries.map Prod.snd

def liveRecords (d : Disk) (now : Time) : List Record := d.records.filter (·.live now)

/-- The record `CheckOrInsert` writes. -/
def newRecord (job : Job) (now : Time) : Record where
  job := job.encoded
  expiresAt := job.pendingExpiresAt now

/-- The batch of a fresh job: its record, its idempotency key and its expiry key. -/
def insert (env : Env) (d : Disk) (job : Job) (now : Time) : Disk :=
  { d with
    jobs := d.jobs.put job.id (newRecord job now)
    idem := d.idem.put (job.idempotencyHash env) job.id
    exp := d.exp.put (expKey (job.pendingExpiresAt now) job.id) () }

def putRecord (d : Disk) (id : String) (r : Record) : Disk := { d with jobs := d.jobs.put id r }

/-- The record and its expiry key in one batch, without the key of its previous expiry. -/
def putRecordWithExpiry (d : Disk) (id : String) (r : Record) (previousExpiresAt : Int) : Disk :=
  { d with
    jobs := d.jobs.put id r
    qk := if r.queueKey ≠ "" ∧ !r.pending then
      d.qk.del (queueIndexKey r.queueKey r.job.createdAt id) else d.qk
    exp := (if previousExpiresAt ≠ r.expiresAt then d.exp.del (expKey previousExpiresAt id)
      else d.exp).put (expKey r.expiresAt id) () }

/-- The batch of `SetQueueKey` for a record that is there. -/
def rekey (d : Disk) (id : String) (r : Record) (queueKey : String) : Disk :=
  let qk := if r.queueKey ≠ "" ∧ r.queueKey ≠ queueKey then
    d.qk.del (queueIndexKey r.queueKey r.job.createdAt id) else d.qk
  { d with
    jobs := d.jobs.put id { r with queueKey := queueKey }
    qk := if r.pending then qk.put (queueIndexKey queueKey r.job.createdAt id) () else qk }

def setQueueKey (d : Disk) (id queueKey : String) : Disk :=
  match d.jobs.get id with
  | none => d
  | some r => d.rekey id r queueKey

def putResult (d : Disk) (id : String) (result : Result) : Disk :=
  match d.jobs.get id with
  | none => d
  | some r => d.putRecord id { r with result := some result }

def recordRetry (d : Disk) (id : String) (attempts : Int) : Disk :=
  match d.jobs.get id with
  | none => d
  | some r => d.putRecord id (r.withRetry attempts)

/-- The batch that deletes a record with its idempotency key and its queue-index key. -/
def remove (env : Env) (d : Disk) (id : String) (r : Record) : Disk :=
  { d with
    jobs := d.jobs.del id
    idem := d.idem.del (r.hash env)
    qk := if r.queueKey ≠ "" then d.qk.del (queueIndexKey r.queueKey r.job.createdAt id) else d.qk }

section Keys

variable {d : Disk} {id queueKey : String} {r : Record} {key : Key}

theorem hash_newRecord {env : Env} {job : Job} {now : Time} (h : job.made env = true) :
    (newRecord job now).hash env = job.idempotencyHash env := by
  simp only [Job.made, Bool.and_eq_true, decide_eq_true_iff] at h
  rw [h.2]
  rfl

theorem get_jobs_insert {env : Env} {job : Job} {now : Time} : (d.insert env job now).jobs.get id =
    if id = job.id then some (newRecord job now) else d.jobs.get id :=
  KeySpace.get_put

theorem mem_qk_putRecordWithExpiry {previous : Int} :
    key ∈ (d.putRecordWithExpiry id r previous).qk.keys ↔ key ∈ d.qk.keys ∧
      (r.queueKey ≠ "" ∧ r.pending = false →
      key ≠ queueIndexKey r.queueKey r.job.createdAt id) := by
  rw [putRecordWithExpiry, KeySpace.mem_keys_del_if, Bool.not_eq_true']

theorem mem_exp_putRecordWithExpiry {previous : Int} :
    key ∈ (d.putRecordWithExpiry id r previous).exp.keys ↔ key = expKey r.expiresAt id ∨
      key ∈ d.exp.keys ∧ (previous ≠ r.expiresAt → key ≠ expKey previous id) := by
  rw [putRecordWithExpiry, KeySpace.mem_keys_put, KeySpace.mem_keys_del_if]

theorem mem_qk_rekey : key ∈ (d.rekey id r queueKey).qk.keys ↔
    (r.pending = true ∧ key = queueIndexKey queueKey r.job.createdAt id) ∨ key ∈ d.qk.keys ∧
      (r.queueKey ≠ "" ∧ r.queueKey ≠ queueKey →
        key ≠ queueIndexKey r.queueKey r.job.createdAt id) := by
  unfold rekey
  by_cases hp : r.pending = true
  · simp only [hp, if_true, KeySpace.mem_keys_put, KeySpace.mem_keys_del_if, true_and]
  · simp only [hp, if_false, KeySpace.mem_keys_del_if, false_and, false_or, Bool.false_eq_true]

theorem mem_qk_remove {env : Env} : key ∈ (d.remove env id r).qk.keys ↔ key ∈ d.qk.keys ∧
    (r.queueKey ≠ "" → key ≠ queueIndexKey r.queueKey r.job.createdAt id) := by
  rw [remove, KeySpace.mem_keys_del_if]

end Keys

/-- `PendingQueueKeys`: the pending records counted by queue key. The first time on a store it also
writes the queue index of every record that has a key. -/
def pendingQueueKeys (d : Disk) (now : Time) : Disk × KeySpace String Nat :=
  let found := (d.liveRecords now).filter Record.pending
  let counts := found.foldl
    (fun counts r => counts.put r.queueKey ((counts.get r.queueKey).getD 0 + 1)) {}
  if d.queueIndexMarker then (d, counts)
  else
    ({ d with
        qk := (found.filter (·.queueKey ≠ "")).foldl
          (fun qk r => qk.put (queueIndexKey r.queueKey r.job.createdAt r.job.id) ()) d.qk
        queueIndexMarker := true }, counts)

/-- The range of index keys a page iterates. -/
def pageRange (d : Disk) (queueKey : String) (after : PageCursor) (createdBefore : Int) :
    List Key :=
  let lower := if after = {} then queuePrefix queueKey
    else queueIndexKey queueKey after.createdAt after.id ++ ['\x00']
  let upper := if 0 < createdBefore then queueIndexBound queueKey createdBefore
    else ['q', 'k', ':'] ++ queueKey.toList ++ ['\x01']
  d.qk.keys.filter fun key => lower ≤ key ∧ key < upper

/-- How many characters of an index key come before the id. -/
def idOffset (queueKey : String) : Nat := (queuePrefix queueKey).length + 17

/-- The job an index key leads to, if it is still one the queue has to run. -/
def readEntry (d : Disk) (queueKey : String) (now : Time) (key : Key) : Option Job :=
  match d.jobs.get (String.ofList (key.drop (idOffset queueKey))) with
  | none => none
  | some r => if r.live now ∧ r.queueKey = queueKey ∧ r.pending then some r.job.asQueued else none

/-- The loop of `QueuedPage`: at most so many jobs, and the stale entries met on the way. -/
def scanIndex (d : Disk) (queueKey : String) (now : Time) : Nat → List Key → List Job × List Key
  | 0, _ => ([], [])
  | _ + 1, [] => ([], [])
  | n + 1, key :: keys =>
    if key.length ≤ idOffset queueKey then scanIndex d queueKey now (n + 1) keys
    else match d.readEntry queueKey now key with
      | some job => (scanIndex d queueKey now n keys).map (job :: ·) id
      | none => (scanIndex d queueKey now (n + 1) keys).map id (key :: ·)

/-- `QueuedPage`, with the stale entries dropped. -/
def queuedPage (d : Disk) (queueKey : String) (after : PageCursor) (createdBefore : Int)
    (limit : Nat) (now : Time) : Disk × List Job :=
  let page := d.scanIndex queueKey now limit (d.pageRange queueKey after createdBefore)
  ({ d with qk := d.qk.delAll page.2 }, page.1)

/-- `recordDrainEvent`, which leaves Aquifer's own webhook deliveries out. -/
def recordDrainEvent (env : Env) (d : Disk) (r : Record) (status : Status) (now : Time) : Disk :=
  if r.job.isWebhookDelivery then d
  else { d with journal := d.journal.record (r.hash env) r.job.id status now }

def backfillExpiryIndex (d : Disk) : Disk :=
  if d.expIndexMarker then d
  else
    { d with
      exp := d.records.foldl (fun exp r => exp.put (expKey r.expiresAt r.job.id) ()) d.exp
      expIndexMarker := true }

/-- The index keys due at `now`, which is in milliseconds. -/
def dueKeys (d : Disk) (now : Int) : List Key := d.exp.keys.filter (· < expKeyBound now)

/-- The record a due index key leads to, if it has expired. -/
def expiredAt (d : Disk) (now : Int) (key : Key) : Option (String × Record) :=
  if key.length ≤ 21 then none
  else match d.jobs.get (String.ofList (key.drop 21)) with
    | none => none
    | some r => if now ≤ r.expiresAt then none else some (String.ofList (key.drop 21), r)

def getJob (d : Disk) (id : String) (now : Time) : Option Job :=
  (d.jobs.get id).bind fun r => if r.live now then some r.job else none

def recoverQueued (d : Disk) (queueKey : String) (now : Time) : List Job :=
  ((d.liveRecords now).filter fun r => r.queueKey = queueKey && r.pending).map (·.job.asQueued)

def getQueuedJobs (d : Disk) (now : Time) : List Job :=
  ((d.liveRecords now).filter Record.pending).map (·.job.asQueued)

end Disk

/-- An open store: the disk, the drain switch and the running counts. -/
structure PebbleStore extends Disk where
  skipDrainEvents : Bool := false
  queued : Int := 0
  inFlight : Int := 0
deriving DecidableEq

namespace PebbleStore

def countStatus (s : PebbleStore) (status : Status) (delta : Int) : PebbleStore :=
  match status with
  | .queued => { s with queued := s.queued + delta }
  | .inFlight => { s with inFlight := s.inFlight + delta }
  | .completed | .failed => s

@[simp] theorem toDisk_countStatus (s : PebbleStore) (status : Status) (delta : Int) :
    (s.countStatus status delta).toDisk = s.toDisk := by
  cases status <;> rfl

def moveStatus (s : PebbleStore) (old new : Status) : PebbleStore :=
  if old = new then s else (s.countStatus old (-1)).countStatus new 1

/-- `CheckOrInsert`: the id that already owns the idempotency hash, or a fresh insert. -/
def checkOrInsert (env : Env) (s : PebbleStore) (job : Job) (now : Time) :
    PebbleStore × String × Bool :=
  match s.idem.get (job.idempotencyHash env) with
  | some existingID => (s, existingID, true)
  | none => ({ s with toDisk := s.toDisk.insert env job now }.countStatus .queued 1, "", false)

def deleteJob (env : Env) (s : PebbleStore) (id : String) : PebbleStore :=
  match s.jobs.get id with
  | none => s
  | some r => { s with toDisk := s.toDisk.remove env id r }.countStatus r.job.status (-1)

def updateStatus (env : Env) (s : PebbleStore) (id : String) (status : Status) (now : Time) :
    PebbleStore :=
  match s.jobs.get id with
  | none => s
  | some r =>
    let written := s.toDisk.putRecordWithExpiry id (r.withStatus status now) r.expiresAt
    { s.moveStatus r.job.status status with
      toDisk := if !status.pending ∧ !s.skipDrainEvents then
          written.recordDrainEvent env (r.withStatus status now) status now
        else written }

/-- The record is rewritten with its keys, and the journal may have one more event. -/
theorem updateStatus_spec (env : Env) (s : PebbleStore) (id : String) (status : Status)
    (now : Time) : s.jobs.get id = none ∧ s.updateStatus env id status now = s ∨
      ∃ r j, s.jobs.get id = some r ∧ s.updateStatus env id status now =
        { s.moveStatus r.job.status status with
          toDisk := { s.toDisk.putRecordWithExpiry id (r.withStatus status now) r.expiresAt with
            journal := j } } := by
  unfold updateStatus
  cases hr : s.jobs.get id with
  | none => exact .inl ⟨rfl, rfl⟩
  | some r =>
    refine .inr ⟨r, ?_⟩
    dsimp only
    unfold Disk.recordDrainEvent
    split_ifs <;> exact ⟨_, rfl, rfl⟩

/-- `ClearIdempotentKeys`: the job, idempotency, expiry and drain keys. The queue index stays. -/
def clearIdempotentKeys (s : PebbleStore) : PebbleStore :=
  { s with jobs := {}, idem := {}, exp := {}, journal := {}, queued := 0, inFlight := 0 }

def expireBatchSize : Nat := 512

def dropExpired (env : Env) (s : PebbleStore) (x : String × Record) : PebbleStore :=
  { s with toDisk := s.toDisk.remove env x.1 x.2 }.countStatus x.2.job.status (-1)

/-- The loop of `deleteExpired`. The records are read from the store, so a deletion that still
waits in the batch is not seen. -/
def expireLoop (env : Env) (now : Int) :
    PebbleStore → List (String × Record) → List Key → PebbleStore
  | s, batch, [] =>
    let s := batch.foldl (dropExpired env) s
    { s with exp := s.exp.keep fun key _ => !(key < expKeyBound now) }
  | s, batch, key :: keys =>
    match s.toDisk.expiredAt now key with
    | none => expireLoop env now s batch keys
    | some x =>
      if batch.length + 1 = expireBatchSize then
        expireLoop env now ((batch ++ [x]).foldl (dropExpired env) s) [] keys
      else expireLoop env now s (batch ++ [x]) keys

def deleteExpired (env : Env) (s : PebbleStore) (now : Int) : PebbleStore :=
  if s.dueKeys now = [] then s else expireLoop env now s [] (s.dueKeys now)

def seedCounts (s : PebbleStore) (now : Time) : PebbleStore :=
  (s.liveRecords now).foldl (fun s r => s.countStatus r.job.status 1)
    { s with queued := 0, inFlight := 0 }

/-- `NewPebble` on what a closed store has left. -/
def new (d : Disk) (now : Time) : PebbleStore :=
  ({ toDisk := d.backfillExpiryIndex } : PebbleStore).seedCounts now

/-- `Counts`: all pending jobs, and the queued ones among them. -/
def counts (s : PebbleStore) : Int × Int := (max s.queued 0 + max s.inFlight 0, max s.queued 0)

/-! ### Runs -/

inductive Event
  | checkOrInsert (job : Job) (now : Time)
  | setQueueKey (id queueKey : String)
  | updateStatus (id : String) (status : Status) (now : Time)
  | recordRetry (id : String) (attempts : Int)
  | putResult (id : String) (result : Result)
  | deleteJob (id : String)
  | pendingQueueKeys (now : Time)
  | queuedPage (queueKey : String) (after : PageCursor) (createdBefore : Int) (limit : Nat)
      (now : Time)
  | deleteExpired (now : Int)
  | clearIdempotentKeys
  | setDrainEventsEnabled (enabled : Bool)
  | listDrainEvents (limit : Int)
  | acknowledgeDrainEventsThrough (sequence : Int)
  | reopen (now : Time)
deriving DecidableEq, Repr

/-- An id that `NewID` may draw: no record and no index key has had it. -/
def unused (s : PebbleStore) (id : String) : Bool :=
  HexID id && (s.jobs.get id).isNone &&
    s.exp.keys.all (fun key => key.drop 21 ≠ id.toList) &&
    s.qk.keys.all (fun key => indexID key ≠ id.toList)

theorem unused_iff {s : PebbleStore} {id : String} : s.unused id = true ↔
    HexID id ∧ s.jobs.get id = none ∧ (∀ key ∈ s.exp.keys, key.drop 21 ≠ id.toList) ∧
      ∀ key ∈ s.qk.keys, indexID key ≠ id.toList := by
  simp only [unused, Bool.and_eq_true, decide_eq_true_iff, Option.isNone_iff_eq_none,
    List.all_eq_true, and_assoc]

/-- One operation. Jobs are inserted as `New` builds them, under an id not drawn before. -/
def step (env : Env) (s : PebbleStore) : Event → Option PebbleStore
  | .checkOrInsert job now =>
    if job.made env ∧ s.unused job.id then some (s.checkOrInsert env job now).1 else none
  | .setQueueKey id queueKey => some { s with toDisk := s.toDisk.setQueueKey id queueKey }
  | .updateStatus id status now => some (s.updateStatus env id status now)
  | .recordRetry id attempts => some { s with toDisk := s.toDisk.recordRetry id attempts }
  | .putResult id result => some { s with toDisk := s.toDisk.putResult id result }
  | .deleteJob id => some (s.deleteJob env id)
  | .pendingQueueKeys now => some { s with toDisk := (s.toDisk.pendingQueueKeys now).1 }
  | .queuedPage queueKey after createdBefore limit now =>
    some { s with toDisk := (s.toDisk.queuedPage queueKey after createdBefore limit now).1 }
  | .deleteExpired now => some (s.deleteExpired env now)
  | .clearIdempotentKeys => some s.clearIdempotentKeys
  | .setDrainEventsEnabled enabled => some { s with skipDrainEvents := !enabled }
  | .listDrainEvents _ => some s
  | .acknowledgeDrainEventsThrough sequence =>
    some { s with journal := s.journal.acknowledgeThrough sequence }
  | .reopen now => some (new s.toDisk now)

end PebbleStore

end Aquifer
