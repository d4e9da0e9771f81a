import Aquifer.Storage.Numbering
import Aquifer.Storage.SQLite

/-! The ledger both stores keep for drain mode: what it lists, and that the two journals list it. -/
namespace Aquifer

/-- Who a job is for the ledger: its idempotency hash, and whether a user submitted it. -/
abbrev Party := String × Bool

/-- What a journal is to list: hash, job and status of each user job that has finished, once and
until it is acknowledged. -/
structure Ledger where
  jobs : KeySpace String Party := {}
  listed : List (String × String × Status) := []

namespace Ledger

def known (l : Ledger) (hash : String) : Bool := l.jobs.entries.any fun e => e.2.1 = hash

def insert (l : Ledger) (id hash : String) (user : Bool) : Ledger :=
  if l.known hash then l else { l with jobs := l.jobs.put id (hash, user) }

/-- The first final status of a user job since its last acknowledgement. -/
def finish (l : Ledger) (id : String) (status : Status) : Ledger :=
  match l.jobs.get id with
  | some (hash, true) =>
    if l.listed.any (·.2.1 = id) then l else { l with listed := l.listed ++ [(hash, id, status)] }
  | _ => l

def delete (l : Ledger) (id : String) : Ledger := { l with jobs := l.jobs.del id }

def acknowledge (l : Ledger) (n : Nat) : Ledger := { l with listed := l.listed.drop n }

theorem known_iff {l : Ledger} {hash : String} :
    l.known hash = true ↔ ∃ id user, l.jobs.get id = some (hash, user) := by
  simp only [known, List.any_eq_true, decide_eq_true_iff, KeySpace.get_eq_some_iff]
  constructor
  · rintro ⟨⟨id, _, user⟩, he, rfl⟩
    exact ⟨id, user, he⟩
  · rintro ⟨id, user, he⟩
    exact ⟨_, he, rfl⟩

theorem jobs_updateStatus {l : Ledger} {id : String} {status : Status} :
    (if status.pending then l else l.finish id status).jobs = l.jobs := by
  unfold finish
  split
  · rfl
  · split
    · split <;> rfl
    · rfl

end Ledger

def Row.party (r : Row) : Party := (r.hash, decide (r.job.webhookURL ≠ ""))

def Record.party (env : Env) (r : Record) : Party := (r.hash env, !r.job.isWebhookDelivery)

def DrainEvent.view (e : DrainEvent) : String × String × Status := (e.hashKey, e.jobID, e.status)

/-- A listing is acknowledged through its last event. -/
def SQLiteStore.acknowledgeListed (q : SQLiteStore) (limit : Int) : SQLiteStore :=
  match (q.listDrainEvents limit).getLast? with
  | none => q
  | some last => q.acknowledgeDrainEventsThrough last.sequence

def Journal.acknowledgeListed (j : Journal) (limit : Int) : Journal :=
  match (j.list limit).getLast? with
  | none => j
  | some last => j.acknowledgeThrough last.sequence

/-- Both stores under the same operations, and the ledger they are to keep. -/
structure Backends where
  sqlite : SQLiteStore := {}
  pebble : PebbleStore
  ledger : Ledger := {}

inductive LedgerOp
  | checkOrInsert (job : Job) (now : Time)
  | updateStatus (id : String) (status : Status) (now : Time) (burned : Nat)
  | deleteJob (id : String)
  | acknowledge (limit : Int)
deriving DecidableEq, Repr

namespace Backends

def step (env : Env) (b : Backends) : LedgerOp → Option Backends
  | .checkOrInsert job now =>
    if job.made env ∧ b.pebble.unused job.id then
      some
        { sqlite := (b.sqlite.checkOrInsert env job now).1
          pebble := (b.pebble.checkOrInsert env job now).1
          ledger := b.ledger.insert job.id (job.idempotencyHash env) (!job.isWebhookDelivery) }
    else none
  | .updateStatus id status now burned =>
    some
      { sqlite := b.sqlite.updateStatus id status now burned
        pebble := b.pebble.updateStatus env id status now
        ledger := if status.pending then b.ledger else b.ledger.finish id status }
  | .deleteJob id =>
    some
      { sqlite := b.sqlite.deleteJob id
        pebble := b.pebble.deleteJob env id
        ledger := b.ledger.delete id }
  | .acknowledge limit =>
    some
      { sqlite := b.sqlite.acknowledgeListed limit
        pebble := { b.pebble with journal := b.pebble.journal.acknowledgeListed limit }
        ledger := b.ledger.acknowledge (batchSize limit) }

def start (opened : Time) : Backends := { pebble := PebbleStore.new .empty opened }

end Backends

variable {env : Env} {l : Ledger} {id : String} {now : Time}

/-- The Pebble store has the ledger's jobs, and its journal lists what the ledger lists. -/
structure PebbleStore.Keeps (env : Env) (s : PebbleStore) (l : Ledger) : Prop where
  records : ∀ id, (s.jobs.get id).map (Record.party env) = l.jobs.get id
  ids : ∀ id r, s.jobs.get id = some r → r.job.id = id
  idem : l.jobs.Inverse Prod.fst s.idem
  recording : s.skipDrainEvents = false
  journal : s.journal.Sound
  journaled : s.journal.recorded.map DrainEvent.view = l.listed

namespace PebbleStore.Keeps

variable {s : PebbleStore}

theorem new (opened : Time) : (PebbleStore.new .empty opened).Keeps env {} := by
  have hdisk : (PebbleStore.new .empty opened).toDisk = { expIndexMarker := true } :=
    toDisk_new {} opened
  have hskip : (PebbleStore.new .empty opened).skipDrainEvents = false := rfl
  refine ⟨fun id => ?_, fun id r hr => ?_, fun h id => ?_, hskip, ?_, ?_⟩
  · rw [hdisk]
    rfl
  · rw [hdisk] at hr
    cases hr
  · rw [hdisk]
    simp [KeySpace.get]
  · rw [hdisk]
    exact Journal.sound_empty
  · rw [hdisk]
    rfl

theorem countStatus (h : s.Keeps env l) (status : Status) (delta : Int) :
    (s.countStatus status delta).Keeps env l := by
  cases status <;> exact { h with }

theorem known (h : s.Keeps env l) (hash : String) :
    s.idem.get hash = none ↔ l.known hash = false := by
  rw [← Bool.not_eq_true, Ledger.known_iff, Option.eq_none_iff_forall_ne_some]
  simp only [ne_eq, h.idem hash, Prod.exists, ← not_exists]
  refine not_congr (exists_congr fun id => ⟨?_, fun ⟨user, hget⟩ => ⟨hash, user, hget, rfl⟩⟩)
  rintro ⟨_, user, hget, rfl⟩
  exact ⟨user, hget⟩

/-- A submission that is known is a duplicate, and one that is new is stored. -/
theorem checkOrInsert (h : s.Keeps env l) {job : Job} (hmade : job.made env = true)
    (hunused : s.unused job.id = true) : (s.checkOrInsert env job now).1.Keeps env
      (l.insert job.id (job.idempotencyHash env) (!job.isWebhookDelivery)) := by
  have hidem := h.known (job.idempotencyHash env)
  cases hknown : l.known (job.idempotencyHash env) with
  | true =>
    obtain ⟨id', hid'⟩ := Option.ne_none_iff_exists'.mp (mt hidem.mp (by simp [hknown]))
    rw [PebbleStore.checkOrInsert, hid', Ledger.insert, if_pos hknown]
    exact h
  | false =>
    have hfree := hidem.mpr hknown
    obtain ⟨-, hnew, -⟩ := unused_iff.mp hunused
    have hnone : l.jobs.get job.id = none := by rw [← h.records, hnew, Option.map_none]
    rw [PebbleStore.checkOrInsert, hfree, Ledger.insert, if_neg (by simp [hknown])]
    dsimp only
    apply countStatus
    refine { h with records := fun id => ?_, ids := fun id r hr => ?_, idem := ?_ }
    · rw [Disk.get_jobs_insert, KeySpace.get_put]
      split_ifs with hid
      · rw [Option.map_some, Record.party, Disk.hash_newRecord hmade]
        rfl
      · exact h.records id
    · rw [Disk.get_jobs_insert] at hr
      split_ifs at hr with hid
      · cases hr
        exact hid.symm
      · exact h.ids id r hr
    · exact h.idem.put hnone (v := (job.idempotencyHash env, !job.isWebhookDelivery)) hfree

/-- Whether the ledger has an event of a job is what the journal goes by. -/
theorem listed_any (h : s.Keeps env l) (id : String) :
    (s.journal.jobs.get id).isSome = l.listed.any (·.2.1 = id) := by
  rw [Bool.eq_iff_iff, h.journal.marked, ← h.journaled, List.any_map, List.any_eq_true]
  exact exists_congr fun e => and_congr_right fun _ => decide_eq_true_iff.symm

/-- A final status as the journal takes it. -/
theorem journal_finish (h : s.Keeps env l) (id : String) {status : Status}
    (hfinal : status.pending = false) (now : Time) :
    (s.updateStatus env id status now).journal.Sound ∧
      (s.updateStatus env id status now).journal.recorded.map DrainEvent.view =
        (l.finish id status).listed := by
  cases hr : s.jobs.get id with
  | none =>
    have hnone : l.jobs.get id = none := by rw [← h.records, hr, Option.map_none]
    have hjournal : (s.updateStatus env id status now).journal = s.journal := by
      rw [PebbleStore.updateStatus, hr]
    rw [hjournal, Ledger.finish, hnone]
    exact ⟨h.journal, h.journaled⟩
  | some r =>
    have hparty : l.jobs.get id = some (r.hash env, !r.job.isWebhookDelivery) := by
      rw [← h.records, hr]
      rfl
    rw [journal_updateStatus env hr, Ledger.finish, hparty, h.ids id r hr]
    by_cases hkind : r.job.isWebhookDelivery = true
    · rw [if_pos (.inr (.inr hkind)), hkind]
      exact ⟨h.journal, h.journaled⟩
    · rw [if_neg (by simp [hfinal, h.recording, hkind]), Journal.record]
      simp only [hkind, Bool.not_false]
      rw [h.listed_any id]
      by_cases hlisted : l.listed.any (·.2.1 = id) = true
      · rw [if_pos hlisted, if_pos hlisted]
        exact ⟨h.journal, h.journaled⟩
      · have hnext : s.journal.sequence.getD 0 <
            (s.journal.nextEvent (r.hash env) id status now).sequence := Int.lt_succ _
        have hmark : (s.journal.jobs.get id).isSome = false := by
          rw [h.listed_any id]
          exact Bool.eq_false_of_not_eq_true hlisted
        rw [if_neg hlisted, if_neg hlisted]
        refine ⟨h.journal.append hnext hmark, ?_⟩
        rw [h.journal.recorded_append hnext, List.map_append, h.journaled]
        rfl

theorem updateStatus (h : s.Keeps env l) (id : String) (status : Status) (now : Time) :
    (s.updateStatus env id status now).Keeps env
      (if status.pending then l else l.finish id status) := by
  obtain ⟨hjobs, hidem, hskip⟩ := rest_updateStatus env s id status now
  have hlisted : (s.updateStatus env id status now).journal.Sound ∧
      (s.updateStatus env id status now).journal.recorded.map DrainEvent.view =
        (if status.pending then l else l.finish id status).listed := by
    cases hp : status.pending with
    | true =>
      have hjournal : (s.updateStatus env id status now).journal = s.journal := by
        cases journaled_updateStatus env s id status now with
        | same hjournal => exact hjournal
        | recorded hfinal => exact absurd (hp.symm.trans hfinal) (by simp)
      rw [hjournal]
      exact ⟨h.journal, h.journaled⟩
    | false => exact h.journal_finish id hp now
  refine ⟨fun id' => ?_, fun id' r hr => ?_, ?_, hskip.trans h.recording, hlisted.1, hlisted.2⟩
  -- who a job is does not change with its status
  · rw [hjobs, Ledger.jobs_updateStatus, ← h.records]
    split_ifs
    · rw [Option.map_map]
      rfl
    · rfl
  · rw [hjobs] at hr
    split_ifs at hr
    · obtain ⟨x, hx, rfl⟩ := Option.map_eq_some_iff.mp hr
      exact h.ids id' x hx
    · exact h.ids id' r hr
  · rw [hidem, Ledger.jobs_updateStatus]
    exact h.idem

theorem deleteJob (h : s.Keeps env l) (id : String) :
    (s.deleteJob env id).Keeps env (l.delete id) := by
  unfold PebbleStore.deleteJob
  split
  · rename_i hnone
    have hgone : l.jobs.get id = none := by rw [← h.records, hnone, Option.map_none]
    rw [Ledger.delete, KeySpace.del_of_get hgone]
    exact h
  · rename_i r hr
    have hparty : l.jobs.get id = some (r.party env) := by rw [← h.records, hr, Option.map_some]
    apply countStatus
    refine { h with records := fun id' => ?_, ids := fun id' x hx => ?_, idem := h.idem.del hparty }
    · rw [Disk.remove, Ledger.delete, KeySpace.get_del, KeySpace.get_del]
      split_ifs
      · rfl
      · exact h.records id'
    · rw [Disk.remove, KeySpace.get_del] at hx
      split_ifs at hx
      exact h.ids id' x hx

theorem acknowledge (h : s.Keeps env l) (limit : Int) :
    { s with journal := s.journal.acknowledgeListed limit }.Keeps env
      (l.acknowledge (batchSize limit)) := by
  have hjournal : (s.journal.acknowledgeListed limit).Sound ∧
      (s.journal.acknowledgeListed limit).recorded = s.journal.recorded.drop (batchSize limit) := by
    unfold Journal.acknowledgeListed
    cases hlast : (s.journal.list limit).getLast? with
    | none =>
      have hnil := (List.take_eq_nil_iff.mp (List.getLast?_eq_none_iff.mp hlast)).resolve_left
        (batchSize_pos limit).ne'
      exact ⟨h.journal, by rw [show s.journal.recorded = [] from hnil, List.drop_nil]⟩
    | some last =>
      refine ⟨h.journal.acknowledge last.sequence, ?_⟩
      rw [h.journal.recorded_acknowledge]
      exact Page.filter_after_take h.journal.increasing hlast
  refine { h with journal := hjournal.1, journaled := ?_ }
  rw [hjournal.2, List.map_drop, h.journaled]
  rfl

end PebbleStore.Keeps

/-- The same of SQLite and its table. -/
structure SQLiteStore.Keeps (q : SQLiteStore) (l : Ledger) : Prop where
  rows : ∀ id, (q.jobs.find id).map Row.party = l.jobs.get id
  recording : q.skipDrainEvents = false
  table : q.Sound
  tabled : q.drainEvents.map DrainEvent.view = l.listed

namespace SQLiteStore.Keeps

variable {q : SQLiteStore}

theorem known (h : q.Keeps l) (hash : String) :
    q.jobs.findAlt hash = none ↔ l.known hash = false := by
  rw [← Bool.not_eq_true, Ledger.known_iff, Table.findAlt_eq_none_iff]
  constructor
  · rintro hnone ⟨id, user, hget⟩
    rw [← h.rows, Option.map_eq_some_iff] at hget
    obtain ⟨r, hr, hparty⟩ := hget
    exact hnone r (Table.find_eq_some_iff.mp hr).1 (congrArg Prod.fst hparty)
  · rintro hnone r hr rfl
    refine hnone ⟨r.id, decide (r.job.webhookURL ≠ ""), ?_⟩
    rw [← h.rows, Table.find_eq_some_iff.mpr ⟨hr, rfl⟩]
    rfl

theorem checkOrInsert (h : q.Keeps l) {job : Job} (hnew : l.jobs.get job.id = none)
    (hhook : job.isWebhookDelivery = decide (job.webhookURL = "")) :
    (q.checkOrInsert env job now).1.Keeps
      (l.insert job.id (job.idempotencyHash env) (!job.isWebhookDelivery)) := by
  have halt := h.known (job.idempotencyHash env)
  rw [SQLiteStore.checkOrInsert, Store.checkOrInsert]
  cases hknown : l.known (job.idempotencyHash env) with
  | true =>
    obtain ⟨r, hr⟩ := Option.ne_none_iff_exists'.mp (mt halt.mp (by simp [hknown]))
    rw [hr, Ledger.insert, if_pos hknown]
    exact h
  | false =>
    have hnorow : q.jobs.find job.id = none := by
      rw [← Option.map_eq_none_iff (f := Row.party), h.rows, hnew]
    rw [halt.mpr hknown, Ledger.insert, if_neg (by simp [hknown])]
    refine ⟨fun id => ?_, h.recording, ⟨h.table.1, h.table.2, h.table.3⟩, h.tabled⟩
    dsimp only
    rw [Table.find_insert hnorow (halt.mpr hknown), KeySpace.get_put]
    by_cases hid : id = job.id
    · subst hid
      simp [Store.newRow, Row.id, Row.party, hhook]
    · have hne : (Store.newRow env job now).id ≠ id := Ne.symm hid
      rw [if_neg hid, if_neg hne, h.rows]

/-- A final status as the table takes it. -/
theorem table_finish (h : q.Keeps l) (id : String) {status : Status}
    (hfinal : status.pending = false) (now : Time) (burned : Nat) :
    (q.updateStatus id status now burned).drainEvents.map DrainEvent.view =
      (l.finish id status).listed := by
  cases hr : q.jobs.find id with
  | none =>
    have hnone : l.jobs.get id = none := by rw [← h.rows, hr, Option.map_none]
    have hstill : (q.jobs.updateStatus id status now).find id = none := by
      rw [Store.updateStatus, Table.find_update, if_pos rfl, hr, Option.map_none]
    have hevents : (q.updateStatus id status now burned).drainEvents = q.drainEvents := by
      unfold SQLiteStore.updateStatus recordDrainEvent
      dsimp only
      rw [hstill]
      split_ifs <;> rfl
    rw [hevents, Ledger.finish, hnone]
    exact h.tabled
  | some r =>
    have hparty : l.jobs.get id = some (r.hash, decide (r.job.webhookURL ≠ "")) := by
      rw [← h.rows, hr]
      rfl
    rw [updateStatus_eq hr hfinal h.recording, Ledger.finish, hparty]
    by_cases hhook : r.job.webhookURL = ""
    · simp only [hhook, if_true, ne_eq, not_true_eq_false, decide_false]
      exact h.tabled
    · simp only [hhook, if_false, ne_eq, not_false_eq_true, decide_true]
      have hany : q.drainEvents.any (·.jobID = id) = l.listed.any (·.2.1 = id) := by
        rw [← h.tabled, List.any_map]
        rfl
      rw [drainEvents_insert, hany]
      split_ifs
      · exact h.tabled
      · rw [List.map_append, h.tabled]
        rfl

theorem updateStatus (h : q.Keeps l) (id : String) (status : Status) (now : Time) (burned : Nat) :
    (q.updateStatus id status now burned).Keeps
      (if status.pending then l else l.finish id status) := by
  obtain ⟨hjobs, hskip⟩ : (q.updateStatus id status now burned).jobs =
      q.jobs.updateStatus id status now ∧ _ := rest_updateStatus
  refine ⟨fun id' => ?_, hskip.trans h.recording, h.table.recorded recorded_updateStatus, ?_⟩
  · rw [hjobs, Store.updateStatus, Table.find_update, Ledger.jobs_updateStatus, ← h.rows]
    split_ifs
    · rw [Option.map_map]
      rfl
    · rfl
  · cases hp : status.pending with
    | true =>
      have hevents : (q.updateStatus id status now burned).drainEvents = q.drainEvents := by
        simp [SQLiteStore.updateStatus, hp]
      rw [hevents]
      exact h.tabled
    | false => exact h.table_finish id hp now burned

theorem deleteJob (h : q.Keeps l) (id : String) : (q.deleteJob id).Keeps (l.delete id) := by
  refine ⟨fun id' => ?_, h.recording, ⟨h.table.1, h.table.2, h.table.3⟩, h.tabled⟩
  show ((q.jobs.erase id).find id').map _ = (l.jobs.del id).get id'
  rw [Table.find_erase, KeySpace.get_del, ← h.rows]
  split_ifs <;> rfl

theorem acknowledge (h : q.Keeps l) (limit : Int) :
    (q.acknowledgeListed limit).Keeps (l.acknowledge (batchSize limit)) := by
  unfold acknowledgeListed
  cases hlast : (q.listDrainEvents limit).getLast? with
  | none =>
    have hnil := (List.take_eq_nil_iff.mp (List.getLast?_eq_none_iff.mp hlast)).resolve_left
      (batchSize_pos limit).ne'
    refine { h with tabled := ?_ }
    rw [Ledger.acknowledge, ← h.tabled, hnil, List.map_nil, List.drop_nil]
  | some last =>
    dsimp only
    refine ⟨?_, ?_, h.table.acknowledge last.sequence, ?_⟩
    · unfold acknowledgeDrainEventsThrough
      split_ifs <;> exact h.rows
    · unfold acknowledgeDrainEventsThrough
      split_ifs <;> exact h.recording
    · rw [h.table.drainEvents_acknowledge, Page.filter_after_take h.table.increasing hlast,
        List.map_drop, h.tabled]
      rfl

end SQLiteStore.Keeps

namespace Backends

variable {b b' : Backends}

end Backends

end Aquifer
