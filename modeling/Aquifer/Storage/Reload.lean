import Aquifer.Storage.QueueIndex
import Aquifer.Storage.SQLite
import Aquifer.Dispatch.Routing

/-! What becomes of a job that is stored, retried across restarts and read back. Pebble writes the
job as it is; SQLite writes the columns of its `jobs` table and scans them. -/
namespace Aquifer

/-- `encoding/json` on the map of headers. -/
structure HeaderCodec where
  marshal : List (String × String) → String
  unmarshal : String → List (String × String)
  unmarshal_marshal : ∀ headers, unmarshal (marshal headers) = headers

/-- The columns every read of the `jobs` table selects. -/
structure Columns where
  id : String
  userID : String
  url : String
  method : String
  body : String
  headers : String
  webhookURL : String
  webhookDelivery : Bool
  status : Status
  createdAt : Int
  executeBefore : Int
  idempotentKeyHash : String
  maxRetries : Int
  attempts : Int
  webhookMaxRetries : Option Int
deriving DecidableEq, Repr

/-- What the table has of a row: `INSERT` names no column for the pool, the key or the scope. -/
def Row.columns (codec : HeaderCodec) (r : Row) : Columns where
  id := r.job.id
  userID := r.job.userID
  url := r.job.url
  method := r.job.method
  body := r.job.body
  headers := codec.marshal r.job.headers
  webhookURL := r.job.webhookURL
  webhookDelivery := r.job.isWebhookDelivery
  status := r.job.status
  createdAt := r.job.createdAt
  executeBefore := r.job.executeBefore
  idempotentKeyHash := r.hash
  maxRetries := r.job.maxRetries
  attempts := r.job.attempts
  webhookMaxRetries := r.job.webhookMaxRetries

/-- Fields that have no column keep the zero value of Go. -/
def scanJob (codec : HeaderCodec) (c : Columns) : Job where
  id := c.id
  userID := c.userID
  url := c.url
  method := c.method
  body := c.body
  headers := codec.unmarshal c.headers
  webhookURL := c.webhookURL
  kind := if c.webhookDelivery then .webhookDelivery else .user
  status := c.status
  createdAt := c.createdAt
  executeBefore := c.executeBefore
  dedupHash := c.idempotentKeyHash
  maxRetries := c.maxRetries
  attempts := c.attempts
  webhookMaxRetries := c.webhookMaxRetries

def Row.scanned (codec : HeaderCodec) (r : Row) : Job := scanJob codec (r.columns codec)

namespace SQLiteStore

/-- `migrate` on a table that has its columns: what was in flight is queued again. -/
def reopen (q : SQLiteStore) : SQLiteStore :=
  { q with
    jobs := q.jobs.map
      (fun r => if r.job.status = .inFlight then { r with job := r.job.asQueued } else r)
      fun r => by split <;> exact ⟨rfl, rfl⟩
    skipDrainEvents := false }

def getJob (codec : HeaderCodec) (q : SQLiteStore) (id : String) (now : Time) : Option Job :=
  (q.jobs.find id).bind fun r => if r.live now then some (r.scanned codec) else none

/-- `GetQueuedJobs`, which leaves the status as it is in the row. -/
def getQueuedJobs (codec : HeaderCodec) (q : SQLiteStore) (now : Time) : List Job :=
  (q.jobs.rows.filter fun r => r.live now && r.pending).map (Row.scanned codec)

def recoverQueued (codec : HeaderCodec) (q : SQLiteStore) (queueKey : String) (now : Time) :
    List Job :=
  (q.jobs.pendingUnder queueKey now).map fun r => (r.scanned codec).asQueued

def queuedPage (codec : HeaderCodec) (q : SQLiteStore) (queueKey : String) (after : PageCursor)
    (createdBefore : Int) (limit : Nat) (now : Time) : List Job :=
  (q.jobs.pageRows queueKey after createdBefore limit now).map fun r => (r.scanned codec).asQueued

end SQLiteStore

/-- The reads that give stored jobs back. -/
inductive Read
  | getJob
  | getQueuedJobs
  | recoverQueued (queueKey : String)
  | queuedPage (queueKey : String) (after : PageCursor) (createdBefore : Int) (limit : Nat)
deriving DecidableEq, Repr

def Disk.read (d : Disk) (id : String) (now : Time) : Read → List Job
  | .getJob => (d.getJob id now).toList
  | .getQueuedJobs => d.getQueuedJobs now
  | .recoverQueued queueKey => d.recoverQueued queueKey now
  | .queuedPage queueKey after createdBefore limit =>
    (d.queuedPage queueKey after createdBefore limit now).2

def SQLiteStore.read (codec : HeaderCodec) (q : SQLiteStore) (id : String) (now : Time) :
    Read → List Job
  | .getJob => (q.getJob codec id now).toList
  | .getQueuedJobs => q.getQueuedJobs codec now
  | .recoverQueued queueKey => q.recoverQueued codec queueKey now
  | .queuedPage queueKey after createdBefore limit =>
    q.queuedPage codec queueKey after createdBefore limit now

/-- What happens to a stored job until it is read back. -/
inductive Handling
  | setQueueKey (queueKey : String)
  | recordRetry (attempts : Int)
  | reopen (now : Time)
deriving DecidableEq, Repr

def PebbleStore.handle (id : String) (s : PebbleStore) : Handling → PebbleStore
  | .setQueueKey queueKey => { s with toDisk := s.toDisk.setQueueKey id queueKey }
  | .recordRetry attempts => { s with toDisk := s.toDisk.recordRetry id attempts }
  | .reopen now => PebbleStore.new s.toDisk now

def SQLiteStore.handle (id : String) (q : SQLiteStore) : Handling → SQLiteStore
  | .setQueueKey queueKey => q.setQueueKey id queueKey
  | .recordRetry attempts => q.recordRetry id attempts
  | .reopen _ => q.reopen

/-- The attempts recorded last and the queue key set last, if one was. -/
structure Handled where
  attempts : Int := 0
  queueKey : Option String := none
deriving DecidableEq, Repr

def Handled.next (k : Handled) : Handling → Handled
  | .setQueueKey queueKey => { k with queueKey := some queueKey }
  | .recordRetry attempts => { k with attempts := attempts }
  | .reopen _ => k

/-- Everything about a job that outlives a restart, and the attempts recorded last. -/
structure SameJob (env : Env) (job : Job) (attempts : Int) (j : Job) : Prop where
  id : j.id = job.id
  userID : j.userID = job.userID
  url : j.url = job.url
  poolID : j.poolID = job.poolID
  method : j.method = job.method
  headers : j.headers = job.headers
  body : j.body = job.body
  webhookURL : j.webhookURL = job.webhookURL
  executeBefore : j.executeBefore = job.executeBefore
  createdAt : j.createdAt = job.createdAt
  maxRetries : j.maxRetries = job.maxRetries
  webhookMaxRetries : j.webhookMaxRetries = job.webhookMaxRetries
  kind : j.kind = job.kind
  hash : j.idempotencyHash env = job.idempotencyHash env
  attempts : j.attempts = attempts

/-- The reads that return a live job in full, whatever else is stored. -/
def Read.Finds (k : Handled) : Read → Prop
  | .getJob | .getQueuedJobs => True
  | .recoverQueued queueKey => queueKey = k.queueKey.getD ""
  | .queuedPage .. => False

/-- What reading back a job gives: the same job wherever it turns up, routed as before, and until
it expires it does turn up. -/
structure Reloaded (c : Routing) (env : Env) (job : Job) (k : Handled) (expiresAt : Int)
    (read : Time → Read → List Job) : Prop where
  same : ∀ now how, ∀ j ∈ read now how, j.id = job.id → SameJob env job k.attempts j
  routed : ∀ now how, ∀ j ∈ read now how, j.id = job.id → c.workerKey j = c.workerKey job ∧
    ∀ mode, c.queueKeyLocked mode j = c.queueKeyLocked mode job
  found : ∀ now, unixMilli now < expiresAt → ∀ how : Read, how.Finds k →
    ∃ j ∈ read now how, j.id = job.id
  paged : ∀ now, unixMilli now < expiresAt → ∀ key, k.queueKey = some key →
    ∃ limit, ∃ j ∈ read now (.queuedPage key {} 0 limit), j.id = job.id

section

variable {c : Routing} {env : Env} {codec : HeaderCodec} {job j : Job} {k : Handled} {n e : Int}
  {now : Time} {d : Disk} {q : SQLiteStore} {id key : String} {how : Read}

/-- A job is routed by its destination, its sender and its headers. -/
theorem SameJob.routed (h : SameJob env job n j) : c.workerKey j = c.workerKey job ∧
    ∀ mode, c.queueKeyLocked mode j = c.queueKeyLocked mode job := by
  have hheader : j.header = job.header := by
    funext name
    rw [Job.header, Job.header, h.headers]
  have hkey : j.apiKey = job.apiKey := by
    unfold Job.apiKey
    rw [hheader]
  refine ⟨?_, fun mode => ?_⟩
  · rw [Routing.workerKey, Routing.workerKey, h.poolID, h.url]
  · rw [Routing.queueKeyLocked, Routing.queueKeyLocked, Routing.jobQueueKey, Routing.jobQueueKey,
      h.userID, hkey]

theorem Reloaded.of_same {read : Time → Read → List Job}
    (hsame : ∀ now how, ∀ j ∈ read now how, j.id = job.id → SameJob env job k.attempts j)
    (hfound : ∀ now, unixMilli now < e → ∀ how : Read, how.Finds k →
      ∃ j ∈ read now how, j.id = job.id)
    (hpaged : ∀ now, unixMilli now < e → ∀ key, k.queueKey = some key →
      ∃ limit, ∃ j ∈ read now (.queuedPage key {} 0 limit), j.id = job.id) :
    Reloaded c env job k e read :=
  ⟨hsame, fun now how j hj hid => (hsame now how j hj hid).routed, hfound, hpaged⟩

/-! ### Pebble -/

/-- The record of a job as it was inserted, but for its attempts and its queue key. -/
structure Disk.Holds (d : Disk) (job : Job) (e : Int) (k : Handled) : Prop where
  ids : ∀ id r, d.jobs.get id = some r → r.job.id = id
  stored : d.jobs.get job.id = some
    { job := { job.encoded with attempts := k.attempts }
      queueKey := k.queueKey.getD ""
      expiresAt := e }
  entry : ∀ key, k.queueKey = some key → queueIndexKey key job.createdAt job.id ∈ d.qk.keys

namespace Disk.Holds

theorem put {r : Record} (h : d.Holds job e k) (hid : r.job.id = job.id) (id : String)
    (r' : Record) (hr' : (d.jobs.put job.id r).get id = some r') : r'.job.id = id := by
  rw [KeySpace.get_put] at hr'
  split_ifs at hr' with heq
  · cases hr'
    exact hid.trans heq.symm
  · exact h.ids id r' hr'

theorem handle {s : PebbleStore} (h : s.Holds job e k) (hqueued : job.status = .queued)
    (a : Handling) : (s.handle job.id a).Holds job e (k.next a) := by
  cases a with
  | setQueueKey queueKey =>
    simp only [PebbleStore.handle, Disk.setQueueKey, h.stored]
    refine ⟨h.put rfl, by simp [Disk.rekey, KeySpace.get_put, Handled.next], ?_⟩
    rintro key ⟨⟩
    exact Disk.mem_qk_rekey.mpr (.inl ⟨congrArg Status.pending hqueued, rfl⟩)
  | recordRetry attempts =>
    simp only [PebbleStore.handle, Disk.recordRetry, h.stored]
    refine ⟨h.put rfl, ?_, h.entry⟩
    simp [Disk.putRecord, KeySpace.get_put, Handled.next, Record.withRetry, Job.encoded, hqueued]
  | reopen now =>
    obtain ⟨_, _, hdisk⟩ := PebbleStore.rest_new s.toDisk now
    rw [PebbleStore.handle, hdisk]
    exact { h with }

/-- A job that is read back comes from a record. -/
theorem of_read (hj : j ∈ d.read id now how) :
    ∃ id r, d.jobs.get id = some r ∧ (j = r.job ∨ j = r.job.asQueued) := by
  have hlive : ∀ {p : Record → Bool}, j ∈ ((d.liveRecords now).filter p).map (·.job.asQueued) →
      ∃ id r, d.jobs.get id = some r ∧ (j = r.job ∨ j = r.job.asQueued) := by
    intro p hj
    obtain ⟨r, hr, rfl⟩ := List.mem_map.mp hj
    have hrecord := List.mem_of_mem_filter (List.mem_of_mem_filter hr)
    obtain ⟨id, hget⟩ := Families.mem_records.mp hrecord
    exact ⟨id, r, hget, .inr rfl⟩
  cases how with
  | getJob =>
    obtain ⟨r, hget, hread⟩ := Option.bind_eq_some_iff.mp (Option.mem_toList.mp hj)
    split_ifs at hread
    cases hread
    exact ⟨id, r, hget, .inl rfl⟩
  | getQueuedJobs => exact hlive hj
  | recoverQueued queueKey => exact hlive hj
  | queuedPage queueKey after createdBefore limit =>
    change j ∈ (d.scanIndex queueKey now limit _).1 at hj
    rw [(Disk.scanIndex_spec _ _ _ _ _).1] at hj
    obtain ⟨key, -, hread⟩ := List.mem_filterMap.mp (List.mem_of_mem_take hj)
    obtain ⟨id, r, -, hget, -, -, -, rfl⟩ := Disk.readEntry_eq_some hread
    exact ⟨id, r, hget, .inr rfl⟩

theorem same (h : d.Holds job e k) (hmade : job.made env = true) (hj : j ∈ d.read job.id now how)
    (hid : j.id = job.id) : SameJob env job k.attempts j := by
  have hhash : job.encoded.idempotencyHash env = job.idempotencyHash env := by
    simp only [Job.made, Bool.and_eq_true, decide_eq_true_iff] at hmade
    exact hmade.2.symm
  obtain ⟨id, r, hget, hjob⟩ := of_read hj
  have hkey : id = job.id := by
    rw [← h.ids id r hget, ← hid]
    rcases hjob with rfl | rfl <;> rfl
  rw [hkey, h.stored] at hget
  cases hget
  rcases hjob with rfl | rfl <;>
    exact ⟨rfl, rfl, rfl, rfl, rfl, rfl, rfl, rfl, rfl, rfl, rfl, rfl, rfl, hhash, rfl⟩

/-- Until it expires, the record of the job is one that every read goes by. -/
theorem record (h : d.Holds job e k) (hqueued : job.status = .queued) (hlive : unixMilli now < e) :
    ∃ r, d.jobs.get job.id = some r ∧ r.job.id = job.id ∧ r.live now = true ∧
      r.pending = true ∧ r.queueKey = k.queueKey.getD "" := by
  refine ⟨_, h.stored, rfl, decide_eq_true hlive, ?_, rfl⟩
  simp [Record.pending, Job.encoded, hqueued, Status.pending]

theorem found (h : d.Holds job e k) (hqueued : job.status = .queued) (hlive : unixMilli now < e)
    (hhow : how.Finds k) : ∃ j ∈ d.read job.id now how, j.id = job.id := by
  obtain ⟨r, hget, hid, hlive, hpending, hkey⟩ := h.record hqueued hlive
  have hrecord : r ∈ d.liveRecords now :=
    List.mem_filter.mpr ⟨Families.mem_records.mpr ⟨_, hget⟩, hlive⟩
  cases how with
  | getJob => exact ⟨r.job, by simp [Disk.read, Disk.getJob, hget, hlive], hid⟩
  | getQueuedJobs =>
    exact ⟨_, List.mem_map_of_mem (List.mem_filter.mpr ⟨hrecord, hpending⟩), hid⟩
  | recoverQueued queueKey =>
    refine ⟨_, List.mem_map_of_mem (List.mem_filter.mpr ⟨hrecord, ?_⟩), hid⟩
    rw [hkey, hpending, decide_eq_true hhow.symm, Bool.and_self]
  | queuedPage => exact hhow.elim

/-- The first page of the queue it was handed to last, if it is long enough, has the job. -/
theorem paged (h : d.Holds job e k) (hqueued : job.status = .queued) (hhex : HexID job.id)
    (hlive : unixMilli now < e) (hkey : k.queueKey = some key) :
    ∃ limit, ∃ j ∈ d.read job.id now (.queuedPage key {} 0 limit), j.id = job.id := by
  obtain ⟨r, hget, hid, hlive, hpending, hown⟩ := h.record hqueued hlive
  rw [hkey, Option.getD_some] at hown
  subst hown
  have hread := Disk.readEntry_of_get (c := job.createdAt) hget hlive hpending
  have hentry : queueIndexKey r.queueKey job.createdAt job.id ∈ d.pageRange r.queueKey {} 0 := by
    exact Disk.mem_pageRange.mpr ⟨h.entry _ hkey, queuePrefix_queueIndexKey, .inl rfl⟩
  refine ⟨(d.pageRange r.queueKey {} 0).length, r.job.asQueued, ?_, hid⟩
  change _ ∈ (d.scanIndex r.queueKey now _ _).1
  rw [(Disk.scanIndex_spec _ _ _ _ _).1, List.take_of_length_le
    ((List.length_filterMap_le _ _).trans (List.length_filter_le _ _))]
  exact List.mem_filterMap.mpr
    ⟨_, List.mem_filter.mpr ⟨hentry, decide_eq_true (Disk.idOffset_lt hhex)⟩, hread⟩

end Disk.Holds

/-! ### SQLite -/

/-- The row of a job as it was inserted, but for its attempts and its queue key. -/
def SQLiteStore.Holds (env : Env) (q : SQLiteStore) (job : Job) (e : Int) (k : Handled) : Prop :=
  q.jobs.find job.id = some
    { job := { job with attempts := k.attempts }
      hash := job.idempotencyHash env
      queueKey := k.queueKey.getD ""
      expiresAt := e }

namespace SQLiteStore.Holds

theorem handle (h : q.Holds env job e k) (hqueued : job.status = .queued) (a : Handling) :
    (q.handle job.id a).Holds env job e (k.next a) := by
  unfold SQLiteStore.Holds at h ⊢
  cases a with
  | setQueueKey queueKey =>
    rw [SQLiteStore.handle, setQueueKey, Store.setQueueKey, Table.find_update, if_pos rfl, h]
    rfl
  | recordRetry attempts =>
    rw [SQLiteStore.handle, recordRetry, Store.recordRetry, Table.find_update, if_pos rfl, h]
    simp [Row.withRetry, Handled.next, hqueued]
  | reopen now =>
    rw [SQLiteStore.handle, reopen, Table.find_map, h]
    simp [Handled.next, hqueued]

/-- A job that is read back is scanned from a row. -/
theorem of_read (hj : j ∈ q.read codec id now how) :
    ∃ r ∈ q.jobs.rows, j = r.scanned codec ∨ j = (r.scanned codec).asQueued := by
  cases how with
  | getJob =>
    obtain ⟨r, hfind, hread⟩ := Option.bind_eq_some_iff.mp (Option.mem_toList.mp hj)
    split_ifs at hread
    cases hread
    exact ⟨r, (Table.find_eq_some_iff.mp hfind).1, .inl rfl⟩
  | getQueuedJobs =>
    obtain ⟨r, hr, rfl⟩ := List.mem_map.mp hj
    exact ⟨r, List.mem_of_mem_filter hr, .inl rfl⟩
  | recoverQueued queueKey =>
    obtain ⟨r, hr, rfl⟩ := List.mem_map.mp hj
    exact ⟨r, List.mem_of_mem_filter hr, .inr rfl⟩
  | queuedPage queueKey after createdBefore limit =>
    obtain ⟨r, hr, rfl⟩ := List.mem_map.mp hj
    exact ⟨r, (Store.mem_pendingUnder.mp (Store.mem_pageRows hr).1).1, .inr rfl⟩

theorem same (h : q.Holds env job e k) (hhash : job.idempotencyHash env ≠ "")
    (hkind : job.kind = .user) (hpool : job.poolID = "") (hj : j ∈ q.read codec job.id now how)
    (hid : j.id = job.id) :
    SameJob env job k.attempts j := by
  obtain ⟨r, hr, hjob⟩ := of_read hj
  obtain ⟨hrow, -⟩ := Table.find_eq_some_iff.mp h
  have hown : r.id = job.id := by
    rw [← hid]
    rcases hjob with rfl | rfl <;> rfl
  obtain rfl := Table.eq_of_id hr hrow hown
  -- the hash is a column of its own, so that it is not computed from the key that is not there
  have hheaders : codec.unmarshal (codec.marshal job.headers) = job.headers :=
    codec.unmarshal_marshal _
  have hdelivery : (if job.isWebhookDelivery then Kind.webhookDelivery else .user) = job.kind := by
    simp [Job.isWebhookDelivery, hkind]
  rcases hjob with rfl | rfl <;>
    exact ⟨rfl, rfl, rfl, hpool.symm, rfl, hheaders, rfl, rfl, rfl, rfl, rfl, rfl, hdelivery,
      if_pos hhash, rfl⟩

theorem row (h : q.Holds env job e k) (hqueued : job.status = .queued) (hlive : unixMilli now < e) :
    ∃ r ∈ q.jobs.pendingUnder (k.queueKey.getD "") now, r.id = job.id ∧
      r.job.createdAt = job.createdAt := by
  obtain ⟨hrow, -⟩ := Table.find_eq_some_iff.mp h
  refine ⟨_, Store.mem_pendingUnder.mpr ⟨hrow, decide_eq_true hlive, rfl, ?_⟩, rfl, rfl⟩
  simp [Row.pending, hqueued, Status.pending]

theorem found (h : q.Holds env job e k) (hqueued : job.status = .queued) (hlive : unixMilli now < e)
    (hhow : how.Finds k) :
    ∃ j ∈ q.read codec job.id now how, j.id = job.id := by
  obtain ⟨r, hr, hid, -⟩ := h.row hqueued hlive
  obtain ⟨hrow, hlive, -, hpending⟩ := Store.mem_pendingUnder.mp hr
  cases how with
  | getJob =>
    have hfind : q.jobs.find job.id = some r := Table.find_eq_some_iff.mpr ⟨hrow, hid⟩
    exact ⟨r.scanned codec, by simp [SQLiteStore.read, getJob, hfind, hlive], hid⟩
  | getQueuedJobs =>
    refine ⟨_, List.mem_map_of_mem (List.mem_filter.mpr ⟨hrow, ?_⟩), hid⟩
    rw [hlive, hpending, Bool.and_self]
  | recoverQueued queueKey =>
    obtain rfl : queueKey = _ := hhow
    exact ⟨_, List.mem_map_of_mem hr, hid⟩
  | queuedPage => exact hhow.elim

theorem paged (h : q.Holds env job e k) (hqueued : job.status = .queued) (hhex : HexID job.id)
    (hcreated : 0 ≤ job.createdAt) (hlive : unixMilli now < e) (hkey : k.queueKey = some key) :
    ∃ limit, ∃ j ∈ q.read codec job.id now (.queuedPage key {} 0 limit), j.id = job.id := by
  obtain ⟨r, hr, hid, hat⟩ := h.row hqueued hlive
  rw [hkey, Option.getD_some] at hr
  have hpast : ({} : PageCursor).covers r.job = false := by
    have hne : ¬ r.job.id ≤ "" := fun hle =>
      hhex.1 (hid.symm.trans (le_antisymm hle (String.le_iff_toList_le.mpr (Texts.nil_le _))))
    simp [PageCursor.covers, hat, hne, hcreated]
  refine ⟨q.jobs.rows.length + 1, _, List.mem_map_of_mem (Store.mem_pageRows_of_short ?_ hr hpast),
    hid⟩
  exact Nat.lt_succ_of_le Store.length_pageRows_le

end SQLiteStore.Holds

/-! ### From the insert to the read -/

theorem Disk.Holds.insert {s : PebbleStore} {job : Job}
    (hids : ∀ id r, s.jobs.get id = some r → r.job.id = id)
    (hfresh : (s.checkOrInsert env job now).2.2 = false) :
    (s.checkOrInsert env job now).1.Holds job (job.pendingExpiresAt now)
      { attempts := job.attempts } := by
  unfold PebbleStore.checkOrInsert at hfresh ⊢
  split at hfresh
  · cases hfresh
  · rw [PebbleStore.toDisk_countStatus]
    refine ⟨fun id r hr => ?_, Disk.get_jobs_insert.trans (if_pos rfl), by simp⟩
    rw [Disk.get_jobs_insert] at hr
    split_ifs at hr with heq
    · cases hr
      exact heq.symm
    · exact hids id r hr

theorem SQLiteStore.Holds.insert (hunused : q.jobs.find job.id = none)
    (hfresh : (q.checkOrInsert env job now).2.2 = false) :
    (q.checkOrInsert env job now).1.Holds env job (job.pendingExpiresAt now)
      { attempts := job.attempts } := by
  simp only [SQLiteStore.checkOrInsert, Store.checkOrInsert] at hfresh ⊢
  split at hfresh
  · cases hfresh
  · rename_i hnone
    have hfind : (q.jobs.insert (Store.newRow env job now)).find job.id = if job.id = job.id then
        some (Store.newRow env job now) else _ := Table.find_insert hunused hnone
    exact hfind.trans (if_pos rfl)

end

namespace Reload

def marked : Env := { hashKey := fun text => "#" ++ text }

def poolRequest : Request where
  userID := "u"
  idempotentKey := "k"
  poolID := "p"
  headers := [("Authorization", "t")]

def urlRequest : Request where
  userID := "u"
  idempotentKey := "k"
  url := "t"
  headers := [("Authorization", "t")]

def urlJob : Job := Job.new marked urlRequest "a" 0

def handled : List Handling := [.setQueueKey "host:t|0", .recordRetry 1, .reopen 5, .recordRetry 2]

end Reload

end Aquifer
