import Aquifer.Storage.Pebble

/-! The SQLite store with its table of drain events. -/
namespace Aquifer

/-- The rows of `drain_events` in the order of their numbers. AUTOINCREMENT numbers a row past the
largest number there has been, which is kept when rows are deleted. -/
structure SQLiteStore where
  jobs : Store := Table.empty
  drainEvents : List DrainEvent := []
  sequence : Int := 0
  skipDrainEvents : Bool := false

namespace SQLiteStore

variable {env : Env} {q : SQLiteStore} {id : String} {status : Status} {now : Time} {burned : Nat}

def checkOrInsert (env : Env) (q : SQLiteStore) (job : Job) (now : Time) :
    SQLiteStore × String × Bool :=
  let answer := q.jobs.checkOrInsert env job now
  ({ q with jobs := answer.1 }, answer.2)

def deleteJob (q : SQLiteStore) (id : String) : SQLiteStore :=
  { q with jobs := q.jobs.deleteJob id }

def setQueueKey (q : SQLiteStore) (id queueKey : String) : SQLiteStore :=
  { q with jobs := q.jobs.setQueueKey id queueKey }

def recordRetry (q : SQLiteStore) (id : String) (attempts : Int) : SQLiteStore :=
  { q with jobs := q.jobs.recordRetry id attempts }

/-- `INSERT OR IGNORE` against the unique `job_id`. Failed inserts may have burned numbers. -/
def insertDrainEvent (q : SQLiteStore) (hashKey jobID : String) (status : Status) (now : Time)
    (burned : Nat) : SQLiteStore :=
  if q.drainEvents.any (·.jobID = jobID) then { q with sequence := q.sequence + burned }
  else
    let e : DrainEvent :=
      { sequence := q.sequence + burned + 1
        hashKey := hashKey
        jobID := jobID
        status := status
        recordedAt := unixMilli now }
    { q with drainEvents := q.drainEvents ++ [e], sequence := e.sequence }

/-- `recordDrainEvent`, which leaves the rows without a webhook out. -/
def recordDrainEvent (q : SQLiteStore) (id : String) (status : Status) (now : Time) (burned : Nat) :
    SQLiteStore :=
  match q.jobs.find id with
  | none => q
  | some r => if r.job.webhookURL = "" then q else q.insertDrainEvent r.hash r.id status now burned

def updateStatus (q : SQLiteStore) (id : String) (status : Status) (now : Time) (burned : Nat) :
    SQLiteStore :=
  let q := { q with jobs := q.jobs.updateStatus id status now }
  if !status.pending ∧ !q.skipDrainEvents then q.recordDrainEvent id status now burned else q

def clearIdempotentKeys (q : SQLiteStore) : SQLiteStore :=
  { q with drainEvents := [], jobs := Table.empty }

def listDrainEvents (q : SQLiteStore) (limit : Int) : List DrainEvent :=
  q.drainEvents.take (batchSize limit)

def acknowledgeDrainEventsThrough (q : SQLiteStore) (sequence : Int) : SQLiteStore :=
  if sequence ≤ 0 then q
  else { q with drainEvents := q.drainEvents.filter fun e => sequence < e.sequence }

theorem rest_updateStatus :
    (q.updateStatus id status now burned).jobs = q.jobs.updateStatus id status now ∧
      (q.updateStatus id status now burned).skipDrainEvents = q.skipDrainEvents := by
  unfold updateStatus recordDrainEvent insertDrainEvent
  dsimp only
  split_ifs
  · split
    · exact ⟨rfl, rfl⟩
    · split_ifs <;> exact ⟨rfl, rfl⟩
  · exact ⟨rfl, rfl⟩

theorem drainEvents_insert {hashKey jobID : String} :
    (q.insertDrainEvent hashKey jobID status now burned).drainEvents =
      if q.drainEvents.any (·.jobID = jobID) then q.drainEvents
      else q.drainEvents ++ [⟨q.sequence + burned + 1, hashKey, jobID, status, unixMilli now⟩] := by
  unfold insertDrainEvent
  split_ifs <;> rfl

/-- A final status of a row with a webhook goes to the table. -/
theorem updateStatus_eq {r : Row} (hr : q.jobs.find id = some r)
    (hfinal : status.pending = false) (hon : q.skipDrainEvents = false) :
    (q.updateStatus id status now burned).drainEvents =
      if r.job.webhookURL = "" then q.drainEvents
      else (q.insertDrainEvent r.hash id status now burned).drainEvents := by
  have hrow : (q.jobs.updateStatus id status now).find id = some (r.withStatus status now) := by
    rw [Store.updateStatus, Table.find_update, if_pos rfl, hr, Option.map_some]
  have hid : r.id = id := (Table.find_eq_some_iff.mp hr).2
  have hyes : (!status.pending) = true ∧ (!q.skipDrainEvents) = true := by simp [hfinal, hon]
  unfold updateStatus recordDrainEvent
  dsimp only
  rw [if_pos hyes, hrow]
  dsimp only [Row.withStatus]
  split_ifs
  · rfl
  · subst hid
    rw [drainEvents_insert, drainEvents_insert]
    rfl

/-- Rows are in order, under positive numbers that the counter has reached. -/
structure Sound (q : SQLiteStore) : Prop where
  increasing : q.drainEvents.Pairwise fun a b => a.sequence < b.sequence
  bounded : ∀ e ∈ q.drainEvents, 0 < e.sequence ∧ e.sequence ≤ q.sequence
  counted : 0 ≤ q.sequence

theorem sound_empty : Sound {} := ⟨List.Pairwise.nil, by simp, le_rfl⟩

/-- What a status does to the table: nothing, or one more event past all others. -/
inductive Recorded (q t : SQLiteStore) : Prop
  | same : t.drainEvents = q.drainEvents → q.sequence ≤ t.sequence → Recorded q t
  | appended {e : DrainEvent} : t.drainEvents = q.drainEvents ++ [e] → q.sequence < e.sequence →
    t.sequence = e.sequence → Recorded q t

theorem recorded_updateStatus : Recorded q (q.updateStatus id status now burned) := by
  unfold updateStatus
  dsimp only
  split_ifs
  · unfold recordDrainEvent
    split
    · exact .same rfl le_rfl
    · split_ifs
      · exact .same rfl le_rfl
      · unfold insertDrainEvent
        split_ifs
        · exact .same rfl (by show q.sequence ≤ q.sequence + burned; omega)
        · exact .appended rfl (by show q.sequence < q.sequence + burned + 1; omega) rfl
  · exact .same rfl le_rfl

theorem Sound.recorded {t : SQLiteStore} (h : q.Sound) (ht : Recorded q t) : t.Sound := by
  have hpos := h.counted
  cases ht with
  | same hevents hseq =>
    refine ⟨hevents ▸ h.increasing, fun e he => ?_, hpos.trans hseq⟩
    have := h.bounded e (hevents ▸ he)
    omega
  | appended hevents hlt hseq =>
    rename_i d
    refine ⟨?_, ?_, by omega⟩
    · rw [hevents, List.pairwise_append]
      refine ⟨h.increasing, List.pairwise_singleton _ _, fun a ha b hb => ?_⟩
      have := (h.bounded a ha).2
      rw [List.mem_singleton.mp hb]
      omega
    · rw [hevents, List.forall_mem_append, List.forall_mem_singleton, hseq]
      refine ⟨fun e he => ?_, by omega⟩
      have := h.bounded e he
      omega

theorem Sound.drainEvents_acknowledge (h : q.Sound) (n : Int) :
    (q.acknowledgeDrainEventsThrough n).drainEvents =
      q.drainEvents.filter fun e => n < e.sequence := by
  unfold acknowledgeDrainEventsThrough
  split_ifs with hn
  · refine (List.filter_eq_self.mpr fun e he => decide_eq_true ?_).symm
    have := (h.bounded e he).1
    omega
  · rfl

theorem Sound.acknowledge (h : q.Sound) (n : Int) :
    (q.acknowledgeDrainEventsThrough n).Sound := by
  have hevents := h.drainEvents_acknowledge n
  have hseq : (q.acknowledgeDrainEventsThrough n).sequence = q.sequence := by
    unfold acknowledgeDrainEventsThrough
    split_ifs <;> rfl
  refine ⟨hevents ▸ h.increasing.filter _, fun e he => ?_, hseq ▸ h.counted⟩
  rw [hseq]
  exact h.bounded e (List.mem_of_mem_filter (hevents ▸ he))

end SQLiteStore

/-- The store of an instance. -/
inductive Backend
  | sqlite (q : SQLiteStore)
  | pebble (p : PebbleStore)

end Aquifer
