import Aquifer.Storage
import Aquifer.Core.Rejections

/-! Intake: a request is validated, stored under its idempotency hash, screened and handed to a
queue. Both stores' `CheckOrInsert` are modelled with every way their write can fail. -/
namespace Aquifer

/-- How the write of a fresh row ends in `Pebble.CheckOrInsert`. -/
inductive Pebble.Write
  | ok
  | marshalFails
  | setJobFails
  | setIdemFails
  | setExpiryFails
  | commitFails
deriving DecidableEq, Repr

/-- `Pebble.CheckOrInsert`, under the hash's shard lock. -/
def Pebble.checkOrInsert (env : Env) (st : Store) (job : Job) (now : Time) (w : Pebble.Write) :
    Store × String × Bool :=
  match st.findAlt (job.idempotencyHash env) with
  | some r => (st, r.id, true)
  | none =>
    match w with
    -- each failure is logged and answered like a fresh insert
    | .marshalFails | .setJobFails | .setIdemFails | .setExpiryFails | .commitFails =>
      (st, "", false)
    | .ok => (st.insert (Store.newRow env job now), "", false)

/-- How the insert statement ends in `SQLite.CheckOrInsert`. -/
inductive SQLite.Write
  | ok
  | execFails
deriving DecidableEq, Repr

/-- `INSERT OR IGNORE`: the table and, unless the statement failed, the number of rows written. -/
def SQLite.insertOrIgnore (st : Store) (row : Row) : SQLite.Write → Store × Option Nat
  | .ok =>
    if st.find row.id = none ∧ st.findAlt row.hash = none then (st.insert row, some 1)
    else (st, some 0)
  | .execFails => (st, none)

def SQLite.checkOrInsert (env : Env) (st : Store) (job : Job) (now : Time) (w : SQLite.Write) :
    Store × String × Bool :=
  match SQLite.insertOrIgnore st (Store.newRow env job now) w with
  | (st, some 1) => (st, "", false)
  | (st, _) =>
    match st.findAlt (job.idempotencyHash env) with
    | some r => (st, r.id, true)
    -- neither inserted nor found: logged, and again answered like a fresh insert
    | none => (st, "", false)

/-- The store in use and how its write ends. -/
inductive StoreWrite
  | pebble (w : Pebble.Write)
  | sqlite (w : SQLite.Write)
deriving DecidableEq, Repr

namespace StoreWrite

def ok : StoreWrite → Bool
  | .pebble w => w = .ok
  | .sqlite w => w = .ok

def checkOrInsert (env : Env) (st : Store) (job : Job) (now : Time) :
    StoreWrite → Store × String × Bool
  | .pebble w => Pebble.checkOrInsert env st job now w
  | .sqlite w => SQLite.checkOrInsert env st job now w

variable {env : Env} {st : Store} {job : Job} {now : Time} {w : StoreWrite} {r : Row}

theorem checkOrInsert_taken (h : st.findAlt (job.idempotencyHash env) = some r) :
    w.checkOrInsert env st job now = (st, r.id, true) := by
  cases w with
  | pebble w => simp [checkOrInsert, Pebble.checkOrInsert, h]
  | sqlite w =>
    have hrow : st.findAlt (Store.newRow env job now).hash = some r := h
    cases w <;> simp [checkOrInsert, SQLite.checkOrInsert, SQLite.insertOrIgnore, hrow, h]

theorem checkOrInsert_free (h : st.findAlt (job.idempotencyHash env) = none)
    (hid : st.find job.id = none) :
    w.checkOrInsert env st job now =
      (if w.ok then st.insert (Store.newRow env job now) else st, "", false) := by
  cases w with
  | pebble w => cases w <;> simp [checkOrInsert, Pebble.checkOrInsert, h, ok]
  | sqlite w =>
    have hrow : st.findAlt (Store.newRow env job now).hash = none := h
    have hrowid : st.find (Store.newRow env job now).id = none := hid
    cases w <;>
      simp [checkOrInsert, SQLite.checkOrInsert, SQLite.insertOrIgnore, hrow, hrowid, h, ok]

/-- With writes that succeed, both stores compute the one `checkOrInsert`. -/
theorem checkOrInsert_eq (hok : w.ok = true) (hid : st.find job.id = none) :
    w.checkOrInsert env st job now = st.checkOrInsert env job now := by
  unfold Store.checkOrInsert
  cases h : st.findAlt (job.idempotencyHash env) with
  | some r => exact checkOrInsert_taken h
  | none => rw [checkOrInsert_free h hid, if_pos hok]

end StoreWrite

/-- `LedgerEntry` as a remote lookup returns it. -/
structure LedgerEntry where
  jobID : String
  status : Status
  resultKey : String := ""
deriving DecidableEq, Repr

/-- The errors a request can end with. -/
inductive Refusal
  | draining
  | invalid (message : String)
  | schema (message : String)
  | admission (d : Admission.Decision)
  | redirectExhausted (jobID : String)
deriving DecidableEq, Repr

structure EnqueueResult where
  jobID : String
  status : Status := .queued
  duplicate : Bool := false
  resultKey : String := ""
deriving DecidableEq, Repr

/-- Which of the two ways an overload signal is answered. -/
inductive OverloadKind
  | queue
  | reroute
deriving DecidableEq, Repr

/-- A target's answer to a direct attempt, with what `isOverloadSignal` makes of it. -/
structure DirectResponse where
  status : Nat
  overload : Option OverloadKind := none
deriving DecidableEq, Repr

/-- What `tryRedirectHop` brings back from one region. -/
inductive Hop
  | unreachable
  | refused
  | direct (status : Nat)
  | relay
deriving DecidableEq, Repr

/-- What the clock, the store, the target and the rest of the process answer while one request is
served. -/
structure Answers where
  id : String
  draining : Bool := false
  created : Time := 0
  inserted : Time := 0
  write : StoreWrite := .pebble .ok
  remote : Option (String → Option LedgerEntry) := none
  schema : Job → Option String := fun _ => none
  admission : Option Admission.Decision := none
  stuckBacklogLimit : Time := 0
  targetBacklogStuck : Bool := false
  /-- The error of the registry's `AdmitAndEnqueue`, and the key it hands the job over under. -/
  refusal : Option Refusal := none
  queueKey : String := ""
  /-- What `AttemptDirect` reads, in the order it reads it. -/
  looked : Time := 0
  checked : Time := 0
  breakerOpen : Option OverloadKind := none
  queueActive : Bool := false
  direct : Option DirectResponse := none
  completed : Time := 0
  regionAdapter : Bool := false
  gateOpen : Bool := false
  candidates : List String := []
  hop : String → Bool → Hop := fun _ _ => .unreachable
  subscribed : Time := 0

/-- The entry the remote ledger has for a hash, if there is a ledger. -/
def Answers.lookup (w : Answers) (hash : String) : Option LedgerEntry :=
  w.remote.bind fun ledger => ledger hash

/-- The error of `ValidateRequestBody`, which only a job with a URL is put to. -/
def Answers.schemaError (w : Answers) (job : Job) : Option String :=
  if job.url = "" then none else w.schema job

/-- The admission decision that turns a request away. Over the soft limit only a job for a target
whose backlog is stuck is refused. -/
def Answers.turnedAway (w : Answers) : Option Admission.Decision :=
  w.admission.filter fun d =>
    !d.allowed && !(d.soft && 0 < w.stuckBacklogLimit && !w.targetBacklogStuck)

/-- What `prepareJob` makes of a request. -/
inductive Prepared
  | refused (e : Refusal)
  | duplicate (r : EnqueueResult)
  | ready (job : Job)
deriving DecidableEq, Repr

/-- The part of `prepareJob` after the insert: ledger, schema, admission. -/
def screen (env : Env) (w : Answers) (job : Job) : Prepared :=
  match w.lookup (job.idempotencyHash env) with
  | some e => .duplicate
      { jobID := e.jobID, status := e.status, duplicate := true, resultKey := e.resultKey }
  | none =>
    match w.schemaError job with
    | some message => .refused (.schema message)
    | none =>
      match w.turnedAway with
      | some d => .refused (.admission d)
      | none => .ready job

def Answers.job (env : Env) (req : Request) (w : Answers) : Job := Job.new env req w.id w.created

def prepareJob (env : Env) (st : Store) (req : Request) (w : Answers) : Store × Prepared :=
  if w.draining then (st, .refused .draining)
  else if req.validate env ≠ "" then (st, .refused (.invalid (req.validate env)))
  else
    let job := w.job env req
    match w.write.checkOrInsert env st job w.inserted with
    | (st, existingID, true) => (st, .duplicate { jobID := existingID, duplicate := true })
    | (st, _, false) =>
      match screen env w job with
      | .ready job => (st, .ready job)
      -- whatever else the screening says, the row just written goes again
      | out => (st.deleteJob job.id, out)

/-- The store and the jobs a queue has taken over. -/
structure Node where
  store : Store
  owned : List String := []

/-- `Dispatch`: the hand-off writes the queue's key, a refusal deletes the row. -/
def dispatch (n : Node) (job : Job) (w : Answers) : Node × Option Refusal :=
  match w.refusal with
  | some e => ({ n with store := n.store.deleteJob job.id }, some e)
  | none => (⟨n.store.setQueueKey job.id w.queueKey, job.id :: n.owned⟩, none)

/-- `Enqueue`, which holds the key's claim throughout. -/
def enqueue (env : Env) (n : Node) (req : Request) (w : Answers) :
    Node × Except Refusal EnqueueResult :=
  match prepareJob env n.store req w with
  | (st, .refused e) => ({ n with store := st }, .error e)
  | (st, .duplicate r) => ({ n with store := st }, .ok r)
  | (st, .ready job) =>
    match dispatch { n with store := st } job w with
    | (n, some e) => (n, .error e)
    | (n, none) => (n, .ok { jobID := job.id })

/-- The store once the fresh job's row has been written, if the write succeeds. -/
def Answers.written (env : Env) (st : Store) (req : Request) (w : Answers) : Store :=
  if w.write.ok then st.insert (Store.newRow env (w.job env req) w.inserted) else st

/-- The node takes requests and this one is valid. -/
def Answers.Opens (env : Env) (req : Request) (w : Answers) : Prop :=
  w.draining = false ∧ req.validate env = ""

/-- A valid request whose key is free goes on to write its row. -/
def Answers.Reaches (env : Env) (st : Store) (req : Request) (w : Answers) : Prop :=
  w.Opens env req ∧ st.findAlt (req.hash env) = none

def Answers.Passes (env : Env) (req : Request) (w : Answers) : Prop :=
  w.lookup (req.hash env) = none ∧ w.schemaError (w.job env req) = none ∧ w.turnedAway = none

instance (env : Env) (req : Request) (w : Answers) : Decidable (w.Passes env req) :=
  inferInstanceAs (Decidable (_ ∧ _ ∧ _))

section Specs

variable {env : Env} {st : Store} {n : Node} {req : Request} {w : Answers} {r : Row} {job : Job}

@[simp] theorem Answers.job_id : (w.job env req).id = w.id := rfl

theorem Answers.job_hash : (w.job env req).idempotencyHash env = req.hash env := by
  have hcached : (w.job env req).dedupHash = req.hash env := rfl
  unfold Job.idempotencyHash
  split
  · exact hcached
  · rfl

theorem Answers.deleteJob_written (hid : st.find w.id = none) :
    (w.written env st req).deleteJob w.id = st := by
  unfold written
  split
  · exact Table.erase_insert hid
  · exact Table.erase_of_find hid

theorem Answers.mem_written (hid : st.find w.id = none)
    (hr : r ∈ (w.written env st req).rows) (hrid : r.id = w.id) :
    w.write.ok = true ∧ r = Store.newRow env (w.job env req) w.inserted := by
  unfold written at hr
  split at hr
  · next hok =>
    rcases Table.mem_insert hr with rfl | hr
    · exact ⟨hok, rfl⟩
    · exact absurd hrid (Table.find_eq_none_iff.mp hid r hr)
  · exact absurd hrid (Table.find_eq_none_iff.mp hid r hr)

theorem Answers.newRow_mem_written (hid : st.find w.id = none)
    (hfree : st.findAlt (req.hash env) = none) (hok : w.write.ok = true) :
    Store.newRow env (w.job env req) w.inserted ∈ (w.written env st req).rows := by
  have hhash : st.findAlt (Store.newRow env (w.job env req) w.inserted).hash = none := by
    rw [Store.newRow, job_hash]
    exact hfree
  rw [written, if_pos hok, Table.rows_insert hid hhash]
  exact List.mem_cons_self

theorem screen_eq_ready_iff :
    screen env w (w.job env req) = .ready job ↔ w.Passes env req ∧ job = w.job env req := by
  unfold screen Answers.Passes
  rw [Answers.job_hash]
  cases w.lookup (req.hash env) with
  | some e => simp
  | none =>
    cases w.schemaError (w.job env req) with
    | some message => simp
    | none => cases w.turnedAway <;> simp [eq_comm]

/-- A request that is turned away before the store is asked changes nothing. -/
theorem prepareJob_closed (st : Store) (h : ¬ w.Opens env req) :
    ∃ e, prepareJob env st req w = (st, .refused e) := by
  unfold prepareJob
  split
  · exact ⟨_, rfl⟩
  split
  · exact ⟨_, rfl⟩
  · next hd hv =>
    refine absurd ⟨?_, ?_⟩ h
    · simpa using hd
    · simpa using hv

theorem prepareJob_taken (h : w.Opens env req) (hr : st.findAlt (req.hash env) = some r) :
    prepareJob env st req w = (st, .duplicate { jobID := r.id, duplicate := true }) := by
  have hkey : st.findAlt ((w.job env req).idempotencyHash env) = some r := by
    rw [Answers.job_hash]
    exact hr
  have hput : w.write.checkOrInsert env st (w.job env req) w.inserted = (st, r.id, true) :=
    StoreWrite.checkOrInsert_taken hkey
  simp [prepareJob, h.1, h.2, hput]

/-- A fresh key: the row is written, and kept only if the job passes. -/
theorem prepareJob_free (h : w.Reaches env st req) (hid : st.find w.id = none) :
    prepareJob env st req w =
      if w.Passes env req then (w.written env st req, .ready (w.job env req))
      else (st, screen env w (w.job env req)) := by
  have hkey : st.findAlt ((w.job env req).idempotencyHash env) = none := by
    rw [Answers.job_hash]
    exact h.2
  have hput : w.write.checkOrInsert env st (w.job env req) w.inserted =
      (w.written env st req, "", false) := StoreWrite.checkOrInsert_free hkey hid
  have hback := (Answers.deleteJob_written hid : (w.written env st req).deleteJob w.id = st)
  simp only [prepareJob, h.1.1, h.1.2, hput, Bool.false_eq_true, if_false, ne_eq, not_true_eq_false]
  cases hs : screen env w (w.job env req) with
  | ready job =>
    obtain ⟨hp, rfl⟩ := screen_eq_ready_iff.mp hs
    simp [hp]
  | refused e | duplicate e =>
    have hp : ¬ w.Passes env req := fun hp => by simp [screen_eq_ready_iff.mpr ⟨hp, rfl⟩] at hs
    simp [hp, hback]

/-- A request with a free key that the screening stops is answered and leaves nothing. -/
theorem enqueue_stopped (h : w.Reaches env n.store req) (hid : n.store.find w.id = none)
    (hp : ¬ w.Passes env req) :
    (∃ e, w.lookup (req.hash env) = none ∧ enqueue env n req w = (n, .error e)) ∨
      ∃ e, w.lookup (req.hash env) = some e ∧ enqueue env n req w = (n, .ok
        { jobID := e.jobID, status := e.status, duplicate := true, resultKey := e.resultKey }) := by
  have hprep := prepareJob_free h hid
  rw [if_neg hp] at hprep
  unfold screen at hprep
  rw [Answers.job_hash] at hprep
  cases hl : w.lookup (req.hash env) with
  | some e => exact .inr ⟨e, rfl, by simp [enqueue, hprep, hl]⟩
  | none =>
    refine .inl ?_
    cases hsch : w.schemaError (w.job env req) with
    | some message => exact ⟨.schema message, rfl, by simp [enqueue, hprep, hl, hsch]⟩
    | none =>
      cases hadm : w.turnedAway with
      | some d => exact ⟨.admission d, rfl, by simp [enqueue, hprep, hl, hsch, hadm]⟩
      | none => exact absurd ⟨hl, hsch, hadm⟩ hp

/-- A request that passes is handed over, or refused by its queue and taken back. -/
theorem enqueue_passed (h : w.Reaches env n.store req) (hid : n.store.find w.id = none)
    (hp : w.Passes env req) :
    (∃ e, w.refusal = some e ∧ enqueue env n req w = (n, .error e)) ∨
      w.refusal = none ∧ enqueue env n req w =
        (⟨(w.written env n.store req).setQueueKey w.id w.queueKey, w.id :: n.owned⟩,
          .ok { jobID := w.id }) := by
  have hprep := prepareJob_free h hid
  rw [if_pos hp] at hprep
  have hback : (w.written env n.store req).deleteJob w.id = n.store := Answers.deleteJob_written hid
  cases hr : w.refusal with
  | some e => exact .inl ⟨e, rfl, by simp [enqueue, hprep, dispatch, hr, hback]⟩
  | none => exact .inr ⟨rfl, by simp [enqueue, hprep, dispatch, hr]⟩

/-- A request whose key is taken, or that does not get that far, adds no row. -/
theorem enqueue_unreached (h : ¬ w.Reaches env n.store req) :
    (∃ e, enqueue env n req w = (n, .error e)) ∨
      ∃ r ∈ n.store.rows, r.hash = req.hash env ∧
        enqueue env n req w = (n, .ok { jobID := r.id, duplicate := true }) := by
  by_cases ho : w.Opens env req
  · refine .inr ?_
    obtain ⟨r, hr⟩ : ∃ r, n.store.findAlt (req.hash env) = some r :=
      Option.ne_none_iff_exists'.mp fun hnone => h ⟨ho, hnone⟩
    obtain ⟨hmem, hhash⟩ := Table.findAlt_eq_some_iff.mp hr
    exact ⟨r, hmem, hhash, by simp [enqueue, prepareJob_taken ho hr]⟩
  · obtain ⟨e, he⟩ := prepareJob_closed n.store ho
    exact .inl ⟨e, by simp [enqueue, he]⟩

end Specs

/-- The store holds a pending row for the id under the hash. -/
def Store.HasPending (st : Store) (id hash : String) : Prop :=
  ∃ r ∈ st.rows, r.id = id ∧ r.hash = hash ∧ r.pending = true

theorem Answers.hasPending_handed {env : Env} {st : Store} {req : Request} {w : Answers}
    {key : String} (hid : st.find w.id = none) (hfree : st.findAlt (req.hash env) = none) :
    ((w.written env st req).setQueueKey w.id key).HasPending w.id (req.hash env) ↔
      w.write.ok = true := by
  constructor
  · rintro ⟨r, hr, hrid, -, -⟩
    rcases Store.mem_setQueueKey.mp hr with ⟨hr, hne⟩ | ⟨r', hr', hid', -⟩
    · exact absurd hrid hne
    · exact (mem_written hid hr' hid').1
  · intro hok
    have hnew : (w.written env st req).HasPending w.id (req.hash env) :=
      ⟨_, newRow_mem_written hid hfree hok, rfl, job_hash, rfl⟩
    exact Store.exists_setQueueKey (fun _ h => h) hnew

/-- An acknowledged job is stored, and a row that cannot be written makes `Enqueue` fail, exactly
when a request that comes to write its row either writes it or is refused for another reason. -/
theorem enqueue_acknowledges_iff (env : Env) (n : Node) (req : Request) (w : Answers)
    (hid : n.store.find w.id = none) :
    ((∀ res, (enqueue env n req w).2 = .ok res → res.duplicate = false →
        (enqueue env n req w).1.store.HasPending res.jobID (req.hash env)) ∧
      (w.Reaches env n.store req → w.write.ok = false → ∃ e, (enqueue env n req w).2 = .error e)) ↔
    (w.Reaches env n.store req → w.write.ok = true ∨ w.lookup (req.hash env) = none ∧
      (w.schemaError (w.job env req) ≠ none ∨ w.turnedAway ≠ none ∨ w.refusal ≠ none)) := by
  by_cases h : w.Reaches env n.store req
  · by_cases hp : w.Passes env req
    · rcases enqueue_passed h hid hp with ⟨e, hr, he⟩ | ⟨hr, he⟩
      · simp [he, h, hp.1, hr]
      · -- handed over: the answer is the same whether or not there is a row
        have hstored : ((w.written env n.store req).setQueueKey w.id w.queueKey).HasPending w.id
            (req.hash env) ↔ w.write.ok = true := Answers.hasPending_handed hid h.2
        simp [he, h, hp.1, hp.2.1, hp.2.2, hr, hstored]
    · rcases enqueue_stopped h hid hp with ⟨e, hl, he⟩ | ⟨e, hl, he⟩
      · have hstop : w.schemaError (w.job env req) ≠ none ∨ w.turnedAway ≠ none := by
          by_contra hnot
          rw [not_or, not_not, not_not] at hnot
          exact hp ⟨hl, hnot⟩
        simp [he, h, hl, ← or_assoc, hstop]
      · simp [he, h, hl]
  · rcases enqueue_unreached h with ⟨e, he⟩ | ⟨r, -, -, he⟩ <;> simp [he, h]

/-- A hash that keeps its input, a request and a node with an empty store. -/
def plainEnv : Env where
  hashKey := fun key => key

def plainRequest : Request where
  userID := "u"
  idempotentKey := "k"
  url := "http://t/"

def emptyNode : Node := { store := Table.empty }

/-- The request against an empty node whose store write ends as given. -/
def written (w : StoreWrite) : Node × Except Refusal EnqueueResult :=
  enqueue plainEnv emptyNode plainRequest { id := "1", write := w }

/-- A failed batch commit, and a failed insert, are acknowledged like stored jobs. -/
theorem failed_write_acknowledged :
    ((written (.pebble .commitFails)).2.toOption = some { jobID := "1" } ∧
      (written (.pebble .commitFails)).1.store.rows = [] ∧
      (written (.pebble .commitFails)).1.owned = ["1"]) ∧
    (written (.sqlite .execFails)).2.toOption = some { jobID := "1" } ∧
      (written (.sqlite .execFails)).1.store.rows = [] ∧
      (written (.sqlite .execFails)).1.owned = ["1"] := by
  decide +kernel

/-- With a write that succeeds the acknowledged job is there. -/
theorem enqueue_acknowledges_plain :
    (enqueue plainEnv emptyNode plainRequest { id := "1" }).1.store.HasPending "1" "u:k" := by
  refine ((enqueue_acknowledges_iff plainEnv emptyNode plainRequest { id := "1" } rfl).mpr
    fun _ => .inl rfl).1 { jobID := "1" } ?_ rfl
  rfl

end Aquifer
