import Mathlib.Data.List.Dedup
import Aquifer.Jobs
import Aquifer.Lib.Page
import Aquifer.Lib.Table

/-! The job store: rows unique by id and by idempotency hash, status and key writes, page reads. -/
namespace Aquifer

/-- One stored job: its idempotency hash, the queue it was last handed to and its expiry. -/
structure Row where
  job : Job
  hash : String
  queueKey : String := ""
  expiresAt : Int
deriving DecidableEq, Repr

def Row.id (r : Row) : String := r.job.id

/-- `forEachJob` and every read skip a row whose expiry has passed. -/
def Row.live (r : Row) (now : Time) : Bool := unixMilli now < r.expiresAt

def Row.pending (r : Row) : Bool := r.job.status.pending

def Row.pos (r : Row) : Int ×ₗ String := r.job.pos

abbrev Store := Table Row Row.id Row.hash

/-- `ttlForStatus` of a finished job, in milliseconds. -/
def ttlCompleted : Int := 1800000
def ttlFailed : Int := 7200000

def expiresAtFor (j : Job) (status : Status) (now : Time) : Int :=
  match status with
  | .completed => unixMilli now + ttlCompleted
  | .failed => unixMilli now + ttlFailed
  | .queued | .inFlight => j.pendingExpiresAt now

/-- A row after `UpdateStatus` and after `RecordRetry`. -/
def Row.withStatus (r : Row) (status : Status) (now : Time) : Row :=
  { r with
    job := { r.job with status := status }
    expiresAt := expiresAtFor r.job status now }

def Row.withRetry (r : Row) (attempts : Int) : Row :=
  { r with job := { r.job with attempts := attempts, status := .queued } }

/-- Unfinished jobs are read back as queued, whatever status their row has. -/
def Job.asQueued (j : Job) : Job := { j with status := .queued }

@[simp] theorem Job.asQueued_id (j : Job) : j.asQueued.id = j.id := rfl
@[simp] theorem Job.asQueued_createdAt (j : Job) : j.asQueued.createdAt = j.createdAt := rfl
@[simp] theorem Job.asQueued_pos (j : Job) : j.asQueued.pos = j.pos := rfl
@[simp] theorem Job.asQueued_covers (c : PageCursor) (j : Job) :
    c.covers j.asQueued = c.covers j := rfl
@[simp] theorem Job.asQueued_queueExpired (j : Job) (now : Time) :
    j.asQueued.queueExpired now = j.queueExpired now := rfl

namespace Store

variable {st : Store} {id : String} {now : Time}

def deleteJob (st : Store) (id : String) : Store := st.erase id

def setQueueKey (st : Store) (id key : String) : Store :=
  st.update id (fun r => { r with queueKey := key }) fun _ => ⟨rfl, rfl⟩

def updateStatus (st : Store) (id : String) (status : Status) (now : Time) : Store :=
  st.update id (fun r => r.withStatus status now) fun _ => ⟨rfl, rfl⟩

def recordRetry (st : Store) (id : String) (attempts : Int) : Store :=
  st.update id (fun r => r.withRetry attempts) fun _ => ⟨rfl, rfl⟩

/-- `GetJob`, which does not see an expired row. -/
def getJob (st : Store) (id : String) (now : Time) : Option Job :=
  (st.find id).bind fun r => if r.live now then some r.job else none

/-- One pass of the cleanup loop. -/
def deleteExpired (st : Store) (now : Time) : Store :=
  st.filter fun r => !(r.expiresAt < unixMilli now)

/-- The unfinished rows last handed to the queue `key`. -/
def pendingUnder (st : Store) (key : String) (now : Time) : List Row :=
  st.rows.filter fun r => r.live now && r.queueKey = key && r.pending

/-- `PendingQueueKeys`: how many unfinished rows lie under each key. -/
def pendingQueueKeys (st : Store) (now : Time) : List (String × Nat) :=
  ((st.rows.filter fun r => r.live now && r.pending).map Row.queueKey).dedup.map fun key =>
    (key, (st.pendingUnder key now).length)

def recoverQueued (st : Store) (key : String) (now : Time) : List Job :=
  (st.pendingUnder key now).map fun r => r.job.asQueued

/-- The rows one page read meets: pending, unexpired, past the cursor and created before the
bound if one is given. -/
def pageRows (st : Store) (key : String) (after : PageCursor) (createdBefore : Int)
    (limit : Nat) (now : Time) : List Row :=
  Page.page Row.pos after.pos limit
    ((st.pendingUnder key now).filter fun r => createdBefore ≤ 0 || r.job.createdAt < createdBefore)

/-- `QueuedPage`; `createdBefore` zero means no bound. -/
def queuedPage (st : Store) (key : String) (after : PageCursor) (createdBefore : Int)
    (limit : Nat) (now : Time) : List Job :=
  (st.pageRows key after createdBefore limit now).map fun r => r.job.asQueued

/-- The row `CheckOrInsert` writes for a fresh job. -/
def newRow (env : Env) (job : Job) (now : Time) : Row where
  job := job
  hash := job.idempotencyHash env
  expiresAt := job.pendingExpiresAt now

/-- `CheckOrInsert` when every store operation succeeds: the id that already owns the
idempotency hash, or a fresh insert. The existing row's expiry is not looked at. -/
def checkOrInsert (env : Env) (st : Store) (job : Job) (now : Time) : Store × String × Bool :=
  match st.findAlt (job.idempotencyHash env) with
  | some r => (st, r.id, true)
  | none => (st.insert (newRow env job now), "", false)

theorem mem_checkOrInsert {env : Env} {job : Job} {r : Row}
    (h : r ∈ (st.checkOrInsert env job now).1.rows) : r ∈ st.rows ∨ r = newRow env job now := by
  unfold checkOrInsert at h
  split at h
  · exact .inl h
  · exact (Table.mem_insert h).symm

theorem mem_checkOrInsert_of_mem {env : Env} {job : Job} {r : Row} (h : r ∈ st.rows) :
    r ∈ (st.checkOrInsert env job now).1.rows := by
  unfold checkOrInsert
  split
  · exact h
  · exact Table.mem_insert_of_mem h

theorem getJob_eq_some_iff {j : Job} :
    st.getJob id now = some j ↔ ∃ r, st.find id = some r ∧ r.live now = true ∧ r.job = j := by
  simp only [getJob, Option.bind_eq_some_iff]
  constructor
  · rintro ⟨r, hr, h⟩
    split at h
    · exact ⟨r, hr, ‹_›, Option.some.inj h⟩
    · cases h
  · rintro ⟨r, hr, hl, rfl⟩
    exact ⟨r, hr, by simp [hl]⟩

theorem getJob_isSome_iff :
    (st.getJob id now).isSome ↔ ∃ r, st.find id = some r ∧ r.live now = true := by
  rw [Option.isSome_iff_exists]
  simp only [getJob_eq_some_iff]
  constructor
  · rintro ⟨j, r, hr, hl, -⟩
    exact ⟨r, hr, hl⟩
  · rintro ⟨r, hr, hl⟩
    exact ⟨r.job, r, hr, hl, rfl⟩

theorem mem_pendingUnder {r : Row} {key : String} :
    r ∈ st.pendingUnder key now ↔
      r ∈ st.rows ∧ r.live now = true ∧ r.queueKey = key ∧ r.pending = true := by
  simp [pendingUnder, and_assoc]

theorem mem_pendingQueueKeys {key : String} {n : Nat} : (key, n) ∈ st.pendingQueueKeys now ↔
    (∃ r, r ∈ st.pendingUnder key now) ∧ n = (st.pendingUnder key now).length := by
  simp only [pendingQueueKeys, List.mem_map, List.mem_dedup, List.mem_filter, mem_pendingUnder,
    Bool.and_eq_true, Prod.mk.injEq]
  constructor
  · rintro ⟨_, ⟨r, ⟨hr, hl, hp⟩, rfl⟩, rfl, rfl⟩
    exact ⟨⟨r, hr, hl, rfl, hp⟩, rfl⟩
  · rintro ⟨⟨r, hr, hl, rfl, hp⟩, rfl⟩
    exact ⟨r.queueKey, ⟨r, ⟨hr, hl, hp⟩, rfl⟩, rfl, rfl⟩

theorem mem_setQueueKey {r : Row} {key : String} : r ∈ (st.setQueueKey id key).rows ↔
    (r ∈ st.rows ∧ r.id ≠ id) ∨ ∃ r' ∈ st.rows, r'.id = id ∧ r = { r' with queueKey := key } :=
  Table.mem_update

theorem exists_setQueueKey {key : String} {P : Row → Prop}
    (hP : ∀ r, P r → P { r with queueKey := key }) (h : ∃ r ∈ st.rows, P r) :
    ∃ r ∈ (st.setQueueKey id key).rows, P r :=
  Table.exists_update hP h

theorem mem_updateStatus {r : Row} {status : Status} : r ∈ (st.updateStatus id status now).rows ↔
    (r ∈ st.rows ∧ r.id ≠ id) ∨ ∃ r' ∈ st.rows, r'.id = id ∧ r = r'.withStatus status now :=
  Table.mem_update

/-- After a terminal write the other rows are the ones still pending. -/
theorem mem_updateStatus_pending {r : Row} {status : Status} (hst : status.pending = false) :
    r ∈ (st.updateStatus id status now).rows ∧ r.pending = true ↔
      (r ∈ st.rows ∧ r.pending = true) ∧ r.id ≠ id := by
  rw [mem_updateStatus]
  constructor
  · rintro ⟨⟨hr, hne⟩ | ⟨r', -, -, rfl⟩, hp⟩
    · exact ⟨⟨hr, hp⟩, hne⟩
    · exact absurd (hst.symm.trans hp) (by simp)
  · rintro ⟨⟨hr, hp⟩, hne⟩
    exact ⟨.inl ⟨hr, hne⟩, hp⟩

theorem mem_recordRetry {r : Row} {attempts : Int} : r ∈ (st.recordRetry id attempts).rows ↔
    (r ∈ st.rows ∧ r.id ≠ id) ∨ ∃ r' ∈ st.rows, r'.id = id ∧ r = r'.withRetry attempts :=
  Table.mem_update

section QueuedPage

variable {key : String} {after : PageCursor} {before : Int} {limit : Nat} {r : Row} {j last : Job}

theorem mem_pageRows (h : r ∈ st.pageRows key after before limit now) :
    r ∈ st.pendingUnder key now ∧ after.covers r.job = false := by
  obtain ⟨hm, ha⟩ := Page.mem_of_mem_page h
  exact ⟨List.mem_of_mem_filter hm, (PageCursor.not_covers_iff _ _).mpr ha⟩

/-- What a page read returns is pending under the key, unexpired and past the cursor. -/
theorem mem_queuedPage (h : j ∈ st.queuedPage key after before limit now) :
    ∃ r ∈ st.pendingUnder key now, after.covers r.job = false ∧ j = r.job.asQueued := by
  obtain ⟨r, hr, rfl⟩ := List.mem_map.mp h
  exact ⟨r, (mem_pageRows hr).1, (mem_pageRows hr).2, rfl⟩

theorem nodup_queuedPage_ids : ((st.queuedPage key after before limit now).map Job.id).Nodup := by
  rw [queuedPage, List.map_map]
  refine List.Nodup.map_on ?_ (Page.nodup_page ((st.nodup_rows.filter _).filter _))
  intro a ha b hb hab
  exact Table.eq_of_id (mem_pendingUnder.mp (mem_pageRows ha).1).1
    (mem_pendingUnder.mp (mem_pageRows hb).1).1 hab

theorem length_pageRows_le :
    (st.pageRows key after before limit now).length ≤ st.rows.length :=
  Page.length_page_le.trans ((List.length_filter_le _ _).trans (List.length_filter_le _ _))

theorem length_queuedPage_le :
    (st.queuedPage key after before limit now).length ≤ st.rows.length := by
  rw [queuedPage, List.length_map]
  exact length_pageRows_le

theorem pageRows_zero : st.pageRows key after 0 limit now =
    Page.page Row.pos after.pos limit (st.pendingUnder key now) := by
  simp [pageRows]

theorem eq_of_pos {a b : Row} (ha : a ∈ st.pendingUnder key now)
    (hb : b ∈ st.pendingUnder key now) (hpos : a.pos = b.pos) : a = b :=
  Table.eq_of_id (mem_pendingUnder.mp ha).1 (mem_pendingUnder.mp hb).1 (pos_injective hpos)

/-- A page is read in order, each row the next pending one. -/
theorem reads_pageRows : Page.Reads Row.pos (st.pendingUnder key now) after.pos
    (st.pageRows key after 0 limit now) := by
  rw [pageRows_zero]
  exact Page.reads_page (st.nodup_rows.filter _) fun a ha b hb => eq_of_pos ha hb

/-- A page shorter than asked for has every pending row past the cursor. -/
theorem mem_pageRows_of_short (hshort : (st.pageRows key after 0 limit now).length < limit)
    (hr : r ∈ st.pendingUnder key now) (ha : after.covers r.job = false) :
    r ∈ st.pageRows key after 0 limit now :=
  Page.mem_page_of_short hshort (by simpa using hr) ((PageCursor.not_covers_iff _ _).mp ha)

theorem mem_queuedPage_of_short
    (hshort : (st.queuedPage key after 0 limit now).length < limit)
    (hr : r ∈ st.pendingUnder key now) (ha : after.covers r.job = false) :
    r.job.asQueued ∈ st.queuedPage key after 0 limit now := by
  rw [queuedPage, List.length_map] at hshort
  exact List.mem_map_of_mem (mem_pageRows_of_short hshort hr ha)

theorem covers_of_mem_queuedPage
    (hlast : (st.queuedPage key after before limit now).getLast? = some last)
    (hj : j ∈ st.queuedPage key after before limit now) : (cursorAt last).covers j = true := by
  rw [queuedPage, List.getLast?_map, Option.map_eq_some_iff] at hlast
  obtain ⟨y, hy, rfl⟩ := hlast
  obtain ⟨r, hr, rfl⟩ := List.mem_map.mp hj
  rw [PageCursor.covers_iff]
  have hle : r.pos ≤ y.pos := Page.le_last hy hr
  exact hle

def cursorAfter (page : List Job) (after : PageCursor) : PageCursor :=
  (page.getLast?.map cursorAt).getD after

/-- After a page shorter than asked for, nothing pending is past the cursor. -/
theorem cursorAfter_covers_of_short
    (hshort : (st.queuedPage key after 0 limit now).length < limit)
    (hr : r ∈ st.pendingUnder key now) :
    (cursorAfter (st.queuedPage key after 0 limit now) after).covers r.job = true := by
  cases hl : (st.queuedPage key after 0 limit now).getLast? with
  | none =>
    have hnil := List.getLast?_eq_none_iff.mp hl
    by_contra hcov
    rw [cursorAfter, hl, Option.map_none, Option.getD_none, Bool.not_eq_true] at hcov
    have hmem := mem_queuedPage_of_short hshort hr hcov
    simp [hnil] at hmem
  | some last =>
    rw [cursorAfter, hl, Option.map_some, Option.getD_some]
    by_cases hcov : after.covers r.job
    · obtain ⟨r', -, ha, rfl⟩ := mem_queuedPage (List.mem_of_getLast? hl)
      rw [PageCursor.covers_iff] at hcov ⊢
      exact hcov.trans ((PageCursor.not_covers_iff _ _).mp ha).le
    · rw [Bool.not_eq_true] at hcov
      simpa using covers_of_mem_queuedPage hl (mem_queuedPage_of_short hshort hr hcov)

/-- What a page leaves out is past the cursor it leaves behind. -/
theorem mem_queuedPage_or_past (hr : r ∈ st.pendingUnder key now)
    (ha : after.covers r.job = false) :
    r.job.asQueued ∈ st.queuedPage key after 0 limit now ∨
      (cursorAfter (st.queuedPage key after 0 limit now) after).covers r.job = false := by
  cases hl : (st.queuedPage key after 0 limit now).getLast? with
  | none => exact .inr (by simpa [cursorAfter, hl] using ha)
  | some last =>
    rw [queuedPage, List.getLast?_map, Option.map_eq_some_iff] at hl
    obtain ⟨y, hy, rfl⟩ := hl
    rw [pageRows_zero] at hy
    rcases Page.mem_page_or_last_lt (fun a ha b hb => eq_of_pos ha hb) hy hr
      ((PageCursor.not_covers_iff _ _).mp ha) with h | h
    · exact .inl (List.mem_map_of_mem (pageRows_zero ▸ h))
    · right
      rw [cursorAfter, queuedPage, List.getLast?_map, pageRows_zero, hy]
      exact (PageCursor.not_covers_iff _ _).mpr h

theorem id_mem_of_asQueued_mem {page : List Job} (h : r.job.asQueued ∈ page) :
    r.id ∈ page.map Job.id :=
  List.mem_map.mpr ⟨_, h, rfl⟩

theorem asQueued_mem_of_id_mem (hr : r ∈ st.rows)
    (h : r.id ∈ (st.queuedPage key after before limit now).map Job.id) :
    r.job.asQueued ∈ st.queuedPage key after before limit now := by
  obtain ⟨j, hj, hid⟩ := List.mem_map.mp h
  obtain ⟨r₀, hr₀, -, rfl⟩ := mem_queuedPage hj
  obtain rfl : r₀ = r := Table.eq_of_id (mem_pendingUnder.mp hr₀).1 hr hid
  exact hj

/-- Everything on a page sorts before a row it leaves out. -/
theorem pos_lt_of_left_out {x : Row} (hr : r ∈ st.pendingUnder key now)
    (ha : after.covers r.job = false)
    (hout : r.job.asQueued ∉ st.queuedPage key after 0 limit now)
    (hx : x.job.asQueued ∈ st.queuedPage key after 0 limit now) : x.pos < r.pos := by
  have hpast := (mem_queuedPage_or_past hr ha).resolve_left hout
  cases hl : (st.queuedPage key after 0 limit now).getLast? with
  | none =>
    rw [List.getLast?_eq_none_iff] at hl
    simp [hl] at hx
  | some last =>
    rw [cursorAfter, hl, Option.map_some, Option.getD_some, PageCursor.not_covers_iff] at hpast
    have hle := (PageCursor.covers_iff _ _).mp (covers_of_mem_queuedPage hl hx)
    exact lt_of_le_of_lt hle hpast

end QueuedPage

end Store

end Aquifer
