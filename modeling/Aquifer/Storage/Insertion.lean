import Aquifer.Storage.QueueIndex
import Aquifer.Storage.SQLite

/-! What `CheckOrInsert` leaves of a fresh job: a row that outlives the job's deadline, and what is
still there after `DeleteJob` has taken the job back. -/
namespace Aquifer

/-! ### How long the row lasts -/

/-- The expiry of the job's row, stored at `now`, is an `int64`. -/
def Job.ExpiryFits (j : Job) (now : Time) : Prop :=
  max (unixMilli now + queuedTTL) j.queueDeadline + pendingRowGrace < 9223372036854775808

instance (j : Job) (now : Time) : Decidable (j.ExpiryFits now) :=
  inferInstanceAs (Decidable (_ < _))

section Expiry

variable {j : Job} {now : Time}

theorem Job.le_queueDeadline (j : Job) : -9223372036854775808 ≤ j.queueDeadline := by
  unfold Job.queueDeadline
  split
  · omega
  · split
    · exact le_int64 _
    · decide

/-- An expiry that fits is the later of the two ends, with the grace. -/
theorem Job.pendingExpiresAt_eq (h : j.ExpiryFits now) :
    j.pendingExpiresAt now = max (unixMilli now + queuedTTL) j.queueDeadline + pendingRowGrace := by
  have hlow := j.le_queueDeadline
  refine int64_of_range ?_ h
  rw [pendingRowGrace]
  omega

/-- One that does not fit is before now or before the deadline. -/
theorem Job.expiryFits_of_outlives (hdeadline : j.queueDeadline + pendingRowGrace ≤
    j.pendingExpiresAt now) (hnow : unixMilli now < j.pendingExpiresAt now) : j.ExpiryFits now := by
  by_contra hover
  have hwrap := int64_le_of_over (Int.not_lt.mp hover)
  rw [Job.pendingExpiresAt] at hdeadline hnow
  rw [queuedTTL, pendingRowGrace] at *
  omega

end Expiry

namespace PebbleStore

variable {env : Env} {s : PebbleStore} {job : Job} {now : Time}

/-- `CheckOrInsert`, and `SetQueueKey` if a queue takes the job. -/
def accept (env : Env) (s : PebbleStore) (job : Job) (now : Time) (key : Option String) :
    PebbleStore :=
  let s := (s.checkOrInsert env job now).1
  match key with
  | none => s
  | some k => { s with toDisk := s.toDisk.setQueueKey job.id k }

def accepted (job : Job) (now : Time) (key : Option String) : Record :=
  { Disk.newRecord job now with queueKey := key.getD "" }

theorem checkOrInsert_fresh (hfree : s.idem.get (job.idempotencyHash env) = none) :
    (s.checkOrInsert env job now).1 =
      { s with toDisk := s.toDisk.insert env job now, queued := s.queued + 1 } := by
  unfold checkOrInsert
  rw [hfree]
  rfl

theorem toDisk_accept (hfree : s.idem.get (job.idempotencyHash env) = none) (key : Option String) :
    (s.accept env job now key) = { s with
      toDisk := match key with
        | none => s.toDisk.insert env job now
        | some k => (s.toDisk.insert env job now).rekey job.id (Disk.newRecord job now) k
      queued := s.queued + 1 } := by
  have hget : (s.toDisk.insert env job now).jobs.get job.id = some (Disk.newRecord job now) := by
    rw [Disk.get_jobs_insert, if_pos rfl]
  unfold accept
  rw [checkOrInsert_fresh hfree]
  cases key with
  | none => rfl
  | some k =>
    dsimp only
    unfold Disk.setQueueKey
    rw [hget]

theorem get_jobs_accept (hfree : s.idem.get (job.idempotencyHash env) = none)
    (key : Option String) :
    (s.accept env job now key).jobs.get job.id = some (accepted job now key) := by
  rw [toDisk_accept hfree]
  cases key with
  | none =>
    show (s.toDisk.insert env job now).jobs.get job.id = _
    rw [Disk.get_jobs_insert, if_pos rfl]
    rfl
  | some k =>
    show ((s.toDisk.insert env job now).jobs.put job.id _).get job.id = _
    rw [KeySpace.get_put, if_pos rfl]
    rfl

theorem mem_qk_accept (hfree : s.idem.get (job.idempotencyHash env) = none)
    (hpending : job.status.pending = true) (k : String) :
    queueIndexKey k job.createdAt job.id ∈ (s.accept env job now (some k)).qk.keys := by
  rw [toDisk_accept hfree]
  exact Disk.mem_qk_rekey.mpr (.inl ⟨hpending, rfl⟩)

theorem get_jobs_deleteExpired_of_le (env : Env) {id : String} {r : Record} {ms : Int}
    (hr : s.jobs.get id = some r) (h : ms ≤ r.expiresAt) :
    (s.deleteExpired env ms).jobs.get id = some r := by
  obtain ⟨gone, heq, hgone, -⟩ := purge_deleteExpired env s ms
  rw [heq]
  dsimp only
  rw [get_jobs_purge, if_neg, hr]
  intro hmem
  obtain ⟨x, hx, rfl⟩ := List.mem_map.mp hmem
  obtain ⟨hget, hexp⟩ := hgone x hx
  obtain rfl : x.2 = r := Option.some.inj (hget.symm.trans hr)
  exact absurd hexp (Int.not_lt.mpr h)

/-- What the readers find of a pending record that has not expired. -/
theorem reads_of_get {d : Disk} {id k : String} {r : Record} {t : Time}
    (hr : d.jobs.get id = some r) (hlive : r.live t = true) (hpending : r.pending = true)
    (hk : r.queueKey = k) :
    d.getJob id t = some r.job ∧ r.job.asQueued ∈ d.getQueuedJobs t ∧
      r.job.asQueued ∈ d.recoverQueued k t ∧
      d.readEntry k t (queueIndexKey k r.job.createdAt id) = some r.job.asQueued := by
  have hmem : r ∈ d.liveRecords t :=
    List.mem_filter.mpr ⟨Families.mem_records.mpr ⟨id, hr⟩, hlive⟩
  subst hk
  refine ⟨?_, ?_, ?_, Disk.readEntry_of_get hr hlive hpending⟩
  · rw [Disk.getJob, hr, Option.bind_some, if_pos hlive]
  · exact List.mem_map_of_mem (List.mem_filter.mpr ⟨hmem, hpending⟩)
  · refine List.mem_map_of_mem (List.mem_filter.mpr ⟨hmem, ?_⟩)
    simp [hpending]

end PebbleStore

/-- The same on SQLite: the accepted row is there until it expires. -/
theorem Store.accepted_kept {env : Env} {st : Store} {job : Job} {now time : Time}
    (hid : st.find job.id = none) (hhash : st.findAlt (job.idempotencyHash env) = none) (k : String)
    (htime : unixMilli time < job.pendingExpiresAt now) (hpending : job.status.pending = true) :
    let t := ((st.checkOrInsert env job now).1.setQueueKey job.id k).deleteExpired time
    t.getJob job.id time = some job ∧ job.asQueued ∈ t.recoverQueued k time := by
  intro t
  let row : Row := { Store.newRow env job now with queueKey := k }
  have hins : (st.checkOrInsert env job now).1 = st.insert (Store.newRow env job now) := by
    rw [Store.checkOrInsert, hhash]
  have hrow : t.find job.id = some row := by
    show (((st.checkOrInsert env job now).1.setQueueKey job.id k).filter _).find job.id = _
    rw [Table.find_filter, Store.setQueueKey, Table.find_update, if_pos rfl, hins,
      Table.find_insert hid hhash, if_pos (show (Store.newRow env job now).id = job.id from rfl),
      Option.map_some, Option.filter_some, if_pos]
    simpa using show unixMilli time ≤ (Store.newRow env job now).expiresAt from le_of_lt htime
  have hlive : row.live time = true := decide_eq_true htime
  obtain ⟨hmem, -⟩ := Table.find_eq_some_iff.mp hrow
  refine ⟨Store.getJob_eq_some_iff.mpr ⟨row, hrow, hlive, rfl⟩, List.mem_map.mpr ⟨row, ?_, rfl⟩⟩
  exact Store.mem_pendingUnder.mpr ⟨hmem, hlive, rfl, hpending⟩

/-- Exactly where the expiry is an `int64`, the row of a request's job expires no sooner than its
grace after the job's deadline and after now, its expiry key is in the order of that time, up to
then the lookup, both recoveries and the queue's page find the job, and cleanup leaves it; so on
SQLite. -/
theorem pending_row_outlives_deadline (env : Env) (r : Request) (id : String) (created now : Time) :
    let job := Job.new env r id created
    let expiresAt := job.pendingExpiresAt now
    (job.queueDeadline + pendingRowGrace ≤ expiresAt ∧ unixMilli now < expiresAt ∧
    (∀ ms < 9223372036854775808, 0 ≤ expiresAt ∨ 0 ≤ ms →
      (expKey expiresAt id < expKeyBound ms ↔ expiresAt < ms)) ∧
    (∀ (s : PebbleStore) (k : String), s.idem.get (job.idempotencyHash env) = none →
      let t := s.accept env job now (some k)
      queueIndexKey k job.createdAt id ∈ t.qk.keys ∧
      ∀ time, unixMilli time < expiresAt →
        t.getJob id time = some job.encoded ∧ job.encoded.asQueued ∈ t.getQueuedJobs time ∧
        job.encoded.asQueued ∈ t.recoverQueued k time ∧
        t.readEntry k time (queueIndexKey k job.createdAt id) = some job.encoded.asQueued ∧
        (t.deleteExpired env (unixMilli time)).jobs.get id = t.jobs.get id) ∧
    ∀ (st : Store) (k : String), st.find id = none → st.findAlt (job.idempotencyHash env) = none →
      ∀ time, unixMilli time < expiresAt →
        let t := ((st.checkOrInsert env job now).1.setQueueKey id k).deleteExpired time
        t.getJob id time = some job ∧ job.asQueued ∈ t.recoverQueued k time) ↔
    job.ExpiryFits now := by
  intro job expiresAt
  refine ⟨fun h => Job.expiryFits_of_outlives h.1 h.2.1, fun hfits => ?_⟩
  have hexp : expiresAt = max (unixMilli now + queuedTTL) job.queueDeadline + pendingRowGrace :=
    Job.pendingExpiresAt_eq hfits
  refine ⟨?_, ?_, fun ms hms hepoch => ?_, fun s k hfree => ⟨?_, fun time htime => ?_⟩, ?_⟩
  · rw [hexp]
    exact Int.add_le_add_right (Int.le_max_right _ _) _
  · rw [hexp, queuedTTL, pendingRowGrace]
    omega
  · by_cases hneg : 0 ≤ expiresAt
    · exact expKey_lt_iff ⟨hneg, hexp ▸ hfits⟩ hms
    · exact iff_of_true (expKey_lt_of_neg (by omega) (by omega)) (by omega)
  · exact PebbleStore.mem_qk_accept hfree rfl k
  · have hr : (s.accept env job now (some k)).jobs.get id =
        some (PebbleStore.accepted job now (some k)) := PebbleStore.get_jobs_accept hfree _
    have hlive : (PebbleStore.accepted job now (some k)).live time = true := decide_eq_true htime
    obtain ⟨hget, hqueued, hrecover, hpage⟩ := PebbleStore.reads_of_get hr hlive rfl rfl
    have hkept := PebbleStore.get_jobs_deleteExpired_of_le env hr (Int.le_of_lt htime)
    exact ⟨hget, hqueued, hrecover, hpage, hkept.trans hr.symm⟩
  · intro st k hid hhash time htime
    exact Store.accepted_kept hid hhash k htime rfl

namespace PebbleStore

variable {env : Env} {s : PebbleStore} {d : Disk} {job : Job} {now : Time}

/-- A request that must start before the year 2286 is over. -/
def datedRequest : Request :=
  { userID := "u", idempotentKey := "k", url := "http://h", executeBefore := 9999999999999 }

/-- At its deadline its row is read on Pebble and on SQLite, and cleanup leaves it. -/
theorem dated_row_outlives_deadline : datedRequest.validate plainEnv = "" ∧
    let job := Job.new plainEnv datedRequest "a" 0
    let t := (new Disk.empty 0).accept plainEnv job 0 (some "q|1")
    let st := (Store.checkOrInsert plainEnv Table.empty job 0).1.setQueueKey "a" "q|1"
    job.ExpiryFits 0 ∧ job.pendingExpiresAt 0 = 10000000899999 ∧
    t.getJob "a" (ofMilli 9999999999999) = some job.encoded ∧
    (t.deleteExpired plainEnv 9999999999999).jobs.get "a" = t.jobs.get "a" ∧
    job.asQueued ∈ (st.deleteExpired (ofMilli 9999999999999)).recoverQueued "q|1"
      (ofMilli 9999999999999) := by
  have hfits : (Job.new plainEnv datedRequest "a" 0).ExpiryFits 0 := by decide
  obtain ⟨-, -, -, hpebble, hsqlite⟩ :=
    (pending_row_outlives_deadline plainEnv datedRequest "a" 0 0).mpr hfits
  obtain ⟨-, hread⟩ := hpebble (new Disk.empty 0) "q|1" rfl
  obtain ⟨hget, -, -, -, hkept⟩ := hread (ofMilli 9999999999999) (by decide)
  exact ⟨by decide, hfits, by decide, hget, hkept,
    (hsqlite Table.empty "q|1" rfl rfl (ofMilli 9999999999999) (by decide)).2⟩

/-- The latest `execute_before` there is. -/
def endlessRequest : Request := { datedRequest with executeBefore := 9223372036854775807 }

/-- It is admitted, and the grace takes the expiry past the last `int64`: the row has expired as it
is stored, its key sorts before every other, and no read finds the job. -/
theorem endless_row_is_expired : endlessRequest.validate plainEnv = "" ∧
    let job := Job.new plainEnv endlessRequest "a" 0
    job.pendingExpiresAt 0 = -9223372036853875809 ∧
    expKey (job.pendingExpiresAt 0) "a" < expKeyBound 0 ∧
    let t := (new Disk.empty 0).accept plainEnv job 0 (some "q|1")
    t.getJob "a" 0 = none ∧ t.getQueuedJobs 0 = [] ∧ t.recoverQueued "q|1" 0 = [] ∧
      (t.queuedPage "q|1" {} 0 10 0).2 = [] := by
  decide +kernel

/-! ### What is left of a job that is refused -/

/-- The job is accepted and deleted. -/
def withdraw (env : Env) (s : PebbleStore) (job : Job) (now : Time) (key : Option String) :
    PebbleStore :=
  (s.accept env job now key).deleteJob env job.id

/-- The batches of `CheckOrInsert` and `DeleteJob` have the record and the idempotency key in
common, not the expiry key. -/
theorem remove_insert (hmade : job.made env = true) (hnew : d.jobs.get job.id = none)
    (hfree : d.idem.get (job.idempotencyHash env) = none) :
    (d.insert env job now).remove env job.id (Disk.newRecord job now) =
      { d with exp := d.exp.put (expKey (job.pendingExpiresAt now) job.id) () } := by
  unfold Disk.remove
  rw [Disk.hash_newRecord hmade]
  simp [Disk.insert, Disk.newRecord, KeySpace.del_put, KeySpace.del_of_get, hnew, hfree]

/-- With the key of a queue in between, the queue's entry goes as well. -/
theorem remove_rekey {k : String} (hmade : job.made env = true) (hnew : d.jobs.get job.id = none)
    (hfree : d.idem.get (job.idempotencyHash env) = none) (hk : k ≠ "")
    (hindex : d.qk.get (queueIndexKey k job.createdAt job.id) = none) :
    ((d.insert env job now).rekey job.id (Disk.newRecord job now) k).remove env job.id
        { Disk.newRecord job now with queueKey := k } =
      { d with exp := d.exp.put (expKey (job.pendingExpiresAt now) job.id) () } := by
  have hpending : (Disk.newRecord job now).pending = true := by
    simp only [Job.made, Bool.and_eq_true, decide_eq_true_iff] at hmade
    simp [Disk.newRecord, Job.encoded, Record.pending, hmade.1, Status.pending]
  have hhash : (Disk.newRecord job now).hash env = job.idempotencyHash env :=
    Disk.hash_newRecord hmade
  have hsame : ({ Disk.newRecord job now with queueKey := k } : Record).hash env =
      job.idempotencyHash env := hhash
  have hblank : (Disk.newRecord job now).queueKey = "" := rfl
  unfold Disk.remove
  rw [hsame]
  simp [Disk.rekey, hpending, hblank, hk, Disk.insert, KeySpace.del_put, KeySpace.del_of_get, hnew,
    hfree]
  exact KeySpace.del_of_get hindex

theorem withdraw_eq (hmade : job.made env = true) (hid : s.unused job.id = true)
    (hfree : s.idem.get (job.idempotencyHash env) = none) {key : Option String}
    (hkey : key ≠ some "") : s.withdraw env job now key =
      { s with exp := s.exp.put (expKey (job.pendingExpiresAt now) job.id) () } := by
  obtain ⟨hhex, hnew, -, hindex⟩ := unused_iff.mp hid
  have hdisk : (s.accept env job now key).toDisk.remove env job.id (accepted job now key) =
      { s.toDisk with exp := s.exp.put (expKey (job.pendingExpiresAt now) job.id) () } := by
    rw [toDisk_accept hfree]
    cases key with
    | none => exact remove_insert hmade hnew hfree
    | some k =>
      refine remove_rekey hmade hnew hfree (fun hk => hkey (hk ▸ rfl)) ?_
      rw [KeySpace.get_eq_none_iff]
      exact fun hmem => hindex _ hmem (indexID_queueIndexKey hhex)
  have hstatus : (accepted job now key).job.status = .queued := by
    simp only [Job.made, Bool.and_eq_true, decide_eq_true_iff] at hmade
    exact hmade.1
  have hcounts : (s.accept env job now key).queued + -1 = s.queued := by
    rw [toDisk_accept hfree]
    exact Int.add_neg_cancel_right s.queued 1
  rw [withdraw, deleteJob, get_jobs_accept hfree]
  dsimp only
  rw [hstatus, countStatus, hdisk, hcounts, toDisk_accept hfree]

end PebbleStore

namespace SQLiteStore

variable {env : Env} {q : SQLiteStore} {job : Job} {now : Time}

def withdraw (env : Env) (q : SQLiteStore) (job : Job) (now : Time) (key : Option String) :
    SQLiteStore :=
  let q := (q.checkOrInsert env job now).1
  let q := match key with
    | none => q
    | some k => q.setQueueKey job.id k
  q.deleteJob job.id

/-- The row goes with all its columns. -/
theorem withdraw_eq (hid : q.jobs.find job.id = none)
    (hfree : q.jobs.findAlt (job.idempotencyHash env) = none) (key : Option String) :
    q.withdraw env job now key = q := by
  have hins : (q.checkOrInsert env job now).1 =
      { q with jobs := q.jobs.insert (Store.newRow env job now) } := by
    rw [checkOrInsert, Store.checkOrInsert, hfree]
  have hback : (q.jobs.insert (Store.newRow env job now)).erase job.id = q.jobs :=
    Table.erase_insert hid
  unfold withdraw
  rw [hins]
  cases key with
  | none => exact congrArg (fun jobs => { q with jobs }) hback
  | some k =>
    refine congrArg (fun jobs => { q with jobs }) (Eq.trans ?_ hback)
    show (Store.setQueueKey (q.jobs.insert _) job.id k).erase job.id = _
    rw [Store.setQueueKey, Table.erase_update]

end SQLiteStore

namespace Backend

def withdraw (env : Env) (job : Job) (now : Time) (key : Option String) : Backend → Backend
  | .sqlite q => .sqlite (q.withdraw env job now key)
  | .pebble s => .pebble (s.withdraw env job now key)

/-- The job is fresh: nothing is stored under its id or its hash. -/
def Fresh (env : Env) (job : Job) (now : Time) : Backend → Prop
  | .sqlite q => q.jobs.find job.id = none ∧ q.jobs.findAlt (job.idempotencyHash env) = none
  | .pebble s => s.unused job.id = true ∧ s.idem.get (job.idempotencyHash env) = none ∧
      expKey (job.pendingExpiresAt now) job.id ∉ s.exp.keys

def isSQLite : Backend → Bool
  | .sqlite _ => true
  | .pebble _ => false

theorem withdraw_eq_iff {env : Env} {job : Job} {now : Time} {key : Option String}
    (hmade : job.made env = true) (hkey : key ≠ some "") {b : Backend} (h : b.Fresh env job now) :
    b.withdraw env job now key = b ↔ b.isSQLite = true := by
  cases b with
  | sqlite q =>
    exact iff_of_true (congrArg Backend.sqlite (SQLiteStore.withdraw_eq h.1 h.2 key)) rfl
  | pebble s =>
    obtain ⟨hid, hfree, hnew⟩ := h
    refine iff_of_false (fun hsame => hnew ?_) Bool.false_ne_true
    have hback : s.withdraw env job now key = s := Backend.pebble.inj hsame
    have hexp : s.exp.put (expKey (job.pendingExpiresAt now) job.id) () = s.exp :=
      congrArg (fun t => t.exp) ((PebbleStore.withdraw_eq hmade hid hfree hkey).symm.trans hback)
    rw [← hexp]
    exact KeySpace.mem_keys_put.mpr (.inl rfl)

end Backend

/-- A job that is inserted and deleted again, with the key of a queue set in between or not, leaves
exactly a SQLite store as it was. A Pebble store has its records, idempotency keys, queue index,
journal and counts as they were, and one key more: the job's in the expiry index. -/
theorem refused_job_leaves_expiry_key (env : Env) (job : Job) (now : Time) (key : Option String)
    (hmade : job.made env = true) (hkey : key ≠ some "") :
    (∀ b : Backend, b.Fresh env job now →
      (b.withdraw env job now key = b ↔ b.isSQLite = true)) ∧
    (∀ q : SQLiteStore, q.jobs.find job.id = none →
      q.jobs.findAlt (job.idempotencyHash env) = none → q.withdraw env job now key = q) ∧
    ∀ s : PebbleStore, s.unused job.id = true → s.idem.get (job.idempotencyHash env) = none →
      s.withdraw env job now key =
        { s with exp := s.exp.put (expKey (job.pendingExpiresAt now) job.id) () } ∧
      (0 ≤ job.pendingExpiresAt now → expKey (job.pendingExpiresAt now) job.id ∉ s.exp.keys) := by
  refine ⟨fun b hfresh => Backend.withdraw_eq_iff hmade hkey hfresh,
    fun q hid hfree => SQLiteStore.withdraw_eq hid hfree key, fun s hid hfree => ⟨?_, ?_⟩⟩
  · exact PebbleStore.withdraw_eq hmade hid hfree hkey
  · intro hexp hmem
    exact (PebbleStore.unused_iff.mp hid).2.2.1 _ hmem (drop_expKey hexp)

namespace PebbleStore

theorem refused_job_leaves_one_key : plainJob.made plainEnv = true ∧
    ((new Disk.empty 0).withdraw plainEnv plainJob 1000000 (some "q|1")).jobs = KeySpace.empty ∧
    Backend.withdraw plainEnv plainJob 1000000 (some "q|1") (.sqlite {}) = .sqlite {} := by
  have h := refused_job_leaves_expiry_key plainEnv plainJob 1000000 (some "q|1") (by decide)
    (by decide)
  refine ⟨by decide, ?_, (h.1 (.sqlite {}) ⟨rfl, rfl⟩).mpr rfl⟩
  rw [(h.2.2 (new Disk.empty 0) (by decide +kernel) (by decide +kernel)).1]
  decide +kernel

/-- The store is not what it was before the job. -/
theorem refused_job_leaves_a_trace :
    (new Disk.empty 0).withdraw plainEnv plainJob 1000000 (some "q|1") ≠ new Disk.empty 0 ∧
    (new Disk.empty 0).withdraw plainEnv plainJob 1000000 none ≠ new Disk.empty 0 ∧
    ((new Disk.empty 0).withdraw plainEnv plainJob 1000000 (some "q|1")).exp.keys =
      [expKey 87300005 "a"] := by
  decide +kernel

end PebbleStore

end Aquifer
