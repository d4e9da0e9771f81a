import Aquifer.Core.Proxy
import Aquifer.Dispatch.AccountQueue

/-! Requests served side by side on one node. Each holds the claim on its idempotency key while the
store is asked and the job screened; `/jobs` keeps it through the hand-off, `/proxy` does not. -/
namespace Aquifer

/-- How far a request has come. A `/proxy` request has given its claim back once it is prepared. -/
inductive Phase
  | arrived
  | claimed
  | inserted
  | prepared
  | fallback
  | done
deriving DecidableEq, Repr

structure Visit where
  route : Route
  req : Request
  job : Job
  phase : Phase
deriving DecidableEq, Repr

namespace Visit

def id (v : Visit) : String := v.job.id

def hash (env : Env) (v : Visit) : String := v.job.idempotencyHash env

def holds (v : Visit) : Bool :=
  v.phase = .claimed || v.phase = .inserted || (v.phase = .prepared && v.route = .jobs)

/-- A `/proxy` request between `PrepareJob`'s release and its decision. -/
def exposed (v : Visit) : Bool :=
  (v.phase = .prepared && v.route = .proxy) || v.phase = .fallback

def isOpen (v : Visit) : Bool := v.phase ≠ .done

def withPhase (v : Visit) (phase : Phase) : Visit := { v with phase := phase }

end Visit

/-- What callers are told and what is taken back, newest first. -/
inductive Verdict
  /-- A request is answered as a duplicate of the job. -/
  | duplicate (id : String)
  /-- The request that created the job deletes its row. -/
  | deleted (id : String)
deriving DecidableEq, Repr

/-- The requests being served, by the id of the job each would create. -/
abbrev Visits := Table Visit Visit.id Visit.id

def Visits.move (visits : Visits) (v : Visit) (phase : Phase) : Visits :=
  visits.update v.id (fun v => v.withPhase phase) fun _ => ⟨rfl, rfl⟩

/-- The log after a write of the request that created the job: a note if the row is gone. -/
def noteDeleted (v : Visit) (st st' : Store) (log : List Verdict) : List Verdict :=
  if (st.find v.id).isSome ∧ (st'.find v.id).isNone then .deleted v.id :: log else log

structure Server where
  store : Store
  visits : Visits
  held : List String
  log : List Verdict

/-- A step of one request, or of somebody else's on the store. -/
inductive Action
  | arrive (route : Route) (req : Request) (w : Answers)
  | claim (id : String)
  | checkOrInsert (id : String) (w : Answers)
  | screen (id : String) (w : Answers)
  | tryDirect (id : String) (w : Answers)
  | dispatch (id : String) (w : Answers)
  | external (op : StoreOp)

namespace Server

def new (store : Store) : Server := ⟨store, Table.empty, [], []⟩

def move (s : Server) (v : Visit) (phase : Phase) : Server :=
  { s with visits := s.visits.move v phase }

def release (env : Env) (s : Server) (v : Visit) : Server :=
  { s with held := s.held.erase (v.hash env) }

def write (s : Server) (v : Visit) (st : Store) : Server :=
  { s with
    store := st
    log := noteDeleted v s.store st s.log }

def answer (s : Server) (id : String) : Server := { s with log := .duplicate id :: s.log }

/-- `NewID` draws an id that nothing has yet. -/
def fresh (s : Server) (id : String) : Bool :=
  (s.store.find id).isNone && (s.visits.find id).isNone && .duplicate id ∉ s.log

/-- `CheckOrInsert`, with the claim held. -/
def checkOrInsert (env : Env) (s : Server) (v : Visit) (w : Answers) : Server :=
  match w.write.checkOrInsert env s.store v.job w.inserted with
  | (st, existingID, true) => (((s.write v st).answer existingID).move v .done).release env v
  | (st, _, false) => (s.write v st).move v .inserted

/-- The rest of `prepareJob`; `PrepareJob` releases at once, `Enqueue` after its hand-off. -/
def screen (env : Env) (s : Server) (v : Visit) (w : Answers) : Server :=
  match Aquifer.screen env w v.job with
  | .ready _ =>
    match v.route with
    | .jobs => s.move v .prepared
    | .proxy => (s.move v .prepared).release env v
  | .duplicate r =>
    (((s.write v (s.store.deleteJob v.id)).answer r.jobID).move v .done).release env v
  | .refused _ => ((s.write v (s.store.deleteJob v.id)).move v .done).release env v

/-- The rest of `AttemptDirect`. -/
def tryDirect (s : Server) (v : Visit) (w : Answers) : Server :=
  match Aquifer.tryDirect s.store v.req v.job w with
  | (st, .fallback ..) => (s.write v st).move v (if v.req.directOnly then .done else .fallback)
  | (st, _) => (s.write v st).move v .done

def handOver (s : Server) (v : Visit) (w : Answers) : Server :=
  (s.write v (Aquifer.dispatch { store := s.store } v.job w).1.store).move v .done

/-- `Dispatch`, which the `/proxy` handler calls once it has subscribed. -/
def dispatch (env : Env) (s : Server) (v : Visit) (w : Answers) : Option Server :=
  match v.route, v.phase with
  | .jobs, .prepared => some ((s.handOver v w).release env v)
  | .proxy, .fallback =>
    if (s.store.getJob v.id w.subscribed).isNone then some (s.move v .done)
    else some (s.handOver v w)
  | _, _ => none

/-- Somebody else's write: queues, webhook deliveries and the cleanup loop. -/
def external (env : Env) (s : Server) (op : StoreOp) : Server :=
  { s with store := op.apply env s.store }

def step (env : Env) (s : Server) : Action → Option Server
  | .arrive route req w =>
    if w.draining ∨ req.validate env ≠ "" then some s
    else if s.fresh w.id then
      some { s with
        visits := s.visits.insert ⟨route, req, w.job env req, .arrived⟩ }
    else none
  | .claim id =>
    (s.visits.find id).bind fun v =>
      if v.phase = .arrived ∧ v.hash env ∉ s.held then
        some { s.move v .claimed with held := v.hash env :: s.held }
      else none
  | .checkOrInsert id w =>
    (s.visits.find id).bind fun v =>
      if v.phase = .claimed then some (s.checkOrInsert env v w) else none
  | .screen id w =>
    (s.visits.find id).bind fun v =>
      if v.phase = .inserted then some (s.screen env v w) else none
  | .tryDirect id w =>
    (s.visits.find id).bind fun v =>
      if v.phase = .prepared ∧ v.route = .proxy then some (s.tryDirect v w) else none
  | .dispatch id w => (s.visits.find id).bind fun v => s.dispatch env v w
  -- a row somebody else adds has an id of its own
  | .external op => if op.insertedID.all s.fresh then some (s.external env op) else none

end Server

/-- At most one request holds a key, and the ones that do are entered in `held`. -/
structure Claims (env : Env) (visits : Visits) (held : List String) : Prop where
  entered : ∀ v ∈ visits.rows, v.holds = true → v.hash env ∈ held
  alone : ∀ v ∈ visits.rows, ∀ v' ∈ visits.rows, v.holds = true → v'.holds = true →
    v.hash env = v'.hash env → v = v'

section Claims

variable {env : Env} {visits : Visits} {held : List String} {v v' : Visit} {phase : Phase}

theorem mem_move : v' ∈ (visits.move v phase).rows ↔
    (v' ∈ visits.rows ∧ v'.id ≠ v.id) ∨ ∃ u ∈ visits.rows, u.id = v.id ∧ v' = u.withPhase phase :=
  Table.mem_update

theorem mem_move_of_mem (hv : v ∈ visits.rows) : v' ∈ (visits.move v phase).rows ↔
    (v' ∈ visits.rows ∧ v'.id ≠ v.id) ∨ v' = v.withPhase phase := by
  rw [mem_move]
  constructor
  · rintro (h | ⟨u, hu, hid, rfl⟩)
    · exact .inl h
    · exact .inr (Table.eq_of_id hu hv hid ▸ rfl)
  · rintro (h | rfl)
    · exact .inl h
    · exact .inr ⟨v, hv, rfl, rfl⟩

theorem Claims.move (h : Claims env visits held) (hv : v ∈ visits.rows)
    (hp : (v.withPhase phase).holds = true → v.holds = true) :
    Claims env (visits.move v phase) held := by
  -- who holds after the step held before it, under the same key
  have hback : ∀ u ∈ (visits.move v phase).rows, u.holds = true →
      ∃ u' ∈ visits.rows, u'.holds = true ∧ u'.hash env = u.hash env ∧ u'.id = u.id := by
    intro u hu hh
    rcases (mem_move_of_mem hv).mp hu with ⟨hu, -⟩ | rfl
    · exact ⟨u, hu, hh, rfl, rfl⟩
    · exact ⟨v, hv, hp hh, rfl, rfl⟩
  refine ⟨fun u hu hh => ?_, fun u hu u' hu' hh hh' heq => ?_⟩
  · obtain ⟨w, hw, hhw, hkey, -⟩ := hback u hu hh
    exact hkey ▸ h.entered w hw hhw
  · obtain ⟨w, hw, hhw, hkey, hid⟩ := hback u hu hh
    obtain ⟨w', hw', hhw', hkey', hid'⟩ := hback u' hu' hh'
    have hww : w = w' := h.alone w hw w' hw' hhw hhw' (by rw [hkey, hkey', heq])
    exact Table.eq_of_id hu hu' (by rw [← hid, ← hid', hww])

theorem Claims.leave (h : Claims env visits held) (hv : v ∈ visits.rows) (hh : v.holds = true)
    (hp : (v.withPhase phase).holds = false) :
    Claims env (visits.move v phase) (held.erase (v.hash env)) := by
  have hmove : Claims env (visits.move v phase) held := h.move hv fun hp' => by simp [hp] at hp'
  refine ⟨fun u hu hhu => ?_, hmove.alone⟩
  rcases (mem_move_of_mem hv).mp hu with ⟨hmem, hne⟩ | rfl
  · have hkey : u.hash env ≠ v.hash env := fun heq => hne (h.alone u hmem v hv hhu hh heq ▸ rfl)
    exact (List.mem_erase_of_ne hkey).mpr (h.entered u hmem hhu)
  · exact absurd (hp.symm.trans hhu) (by simp)

theorem Claims.enter (h : Claims env visits held) (hv : v ∈ visits.rows)
    (hfree : v.hash env ∉ held) : Claims env (visits.move v phase) (v.hash env :: held) := by
  refine ⟨fun u hu hhu => ?_, fun u hu u' hu' hhu hhu' heq => ?_⟩
  · rcases (mem_move_of_mem hv).mp hu with ⟨hmem, -⟩ | rfl
    · exact List.mem_cons_of_mem _ (h.entered u hmem hhu)
    · exact List.mem_cons_self
  · rcases (mem_move_of_mem hv).mp hu with ⟨hmem, -⟩ | rfl <;>
      rcases (mem_move_of_mem hv).mp hu' with ⟨hmem', -⟩ | rfl
    · exact h.alone u hmem u' hmem' hhu hhu' heq
    · exact absurd (h.entered u hmem hhu) (heq ▸ hfree)
    · exact absurd (h.entered u' hmem' hhu') (heq ▸ hfree)
    · rfl

theorem Claims.arrive (h : Claims env visits held) (hp : v.holds = false) :
    Claims env (visits.insert v) held := by
  have hold : ∀ u ∈ (visits.insert v).rows, u.holds = true → u ∈ visits.rows := by
    intro u hu hhu
    rcases Table.mem_insert hu with rfl | hu
    · exact absurd (hp.symm.trans hhu) (by simp)
    · exact hu
  exact ⟨fun u hu hhu => h.entered u (hold u hu hhu) hhu, fun u hu u' hu' hhu hhu' =>
    h.alone u (hold u hu hhu) u' (hold u' hu' hhu') hhu hhu'⟩

end Claims

/-- What is known of the requests still open: their rows, that nobody was told of their jobs, and
that no job was taken back after somebody was. -/
structure Books (env : Env) (visits : Visits) (st : Store) (log : List Verdict) : Prop where
  rows : ∀ v ∈ visits.rows, v.isOpen = true → ∀ r ∈ st.rows, r.id = v.id →
    r.hash = v.hash env ∧ v.phase ≠ .arrived ∧ v.phase ≠ .claimed
  unnamed : ∀ v ∈ visits.rows, v.isOpen = true → .duplicate v.id ∉ log
  safe : log.Pairwise fun later earlier => ∀ id, later = .deleted id → earlier ≠ .duplicate id

section Books

variable {env : Env} {visits : Visits} {st st' : Store} {log : List Verdict} {v : Visit}
  {phase : Phase}

/-- Every row was there before under the same id and key. -/
def Inherits (st st' : Store) : Prop :=
  ∀ r' ∈ st'.rows, ∃ r ∈ st.rows, r.id = r'.id ∧ r.hash = r'.hash

theorem inherits_filter {p : Row → Bool} : Inherits st (st.filter p) :=
  fun r hr => ⟨r, List.mem_of_mem_filter hr, rfl, rfl⟩

theorem inherits_setQueueKey {id key : String} : Inherits st (st.setQueueKey id key) := by
  intro r' hr'
  rcases Store.mem_setQueueKey.mp hr' with ⟨hr, -⟩ | ⟨r, hr, -, rfl⟩
  · exact ⟨r', hr, rfl, rfl⟩
  · exact ⟨r, hr, rfl, rfl⟩

theorem inherits_updateStatus {id : String} {status : Status} {now : Time} :
    Inherits st (st.updateStatus id status now) := by
  intro r' hr'
  rcases Store.mem_updateStatus.mp hr' with ⟨hr, -⟩ | ⟨r, hr, -, rfl⟩
  · exact ⟨r', hr, rfl, rfl⟩
  · exact ⟨r, hr, rfl, rfl⟩

/-- A write keeps the ids and keys of the rows, and adds at most the job's own. -/
def Grows (env : Env) (v : Visit) (st st' : Store) : Prop :=
  ∀ r' ∈ st'.rows, (∃ r ∈ st.rows, r.id = r'.id ∧ r.hash = r'.hash) ∨
    r'.id = v.id ∧ r'.hash = v.hash env

theorem inherits_tryDirect (st : Store) (req : Request) (job : Job) (w : Answers) :
    Inherits st (Aquifer.tryDirect st req job w).1 := by
  cases hl : w.goesLocal job with
  | true =>
    obtain ⟨reason, status, hout⟩ := tryDirect_local st req hl
    rw [hout]
    dsimp only
    split
    · exact inherits_filter
    · exact fun r hr => ⟨r, hr, rfl, rfl⟩
  | false =>
    obtain ⟨out, -, hout | hout⟩ := tryDirect_away st req hl <;> rw [hout]
    · exact inherits_filter
    · exact inherits_updateStatus

theorem inherits_dispatch (n : Node) (job : Job) (w : Answers) :
    Inherits n.store (Aquifer.dispatch n job w).1.store := by
  unfold Aquifer.dispatch
  split
  · exact inherits_filter
  · exact inherits_setQueueKey

theorem lookup_of_duplicate {job : Job} {w : Answers} {r : EnqueueResult}
    (h : Aquifer.screen env w job = .duplicate r) :
    ∃ e ∈ w.lookup (job.idempotencyHash env), e.jobID = r.jobID := by
  unfold Aquifer.screen at h
  split at h
  · next e he =>
    cases h
    exact ⟨e, he, rfl⟩
  · split at h
    · cases h
    · split at h <;> cases h

theorem Inherits.grows (h : Inherits st st') : Grows env v st st' := fun r hr => .inl (h r hr)

theorem mem_noteDeleted {x : Verdict} (h : x ∈ noteDeleted v st st' log) :
    x = .deleted v.id ∨ x ∈ log := by
  unfold noteDeleted at h
  split at h
  · exact List.mem_cons.mp h
  · exact .inr h

theorem Books.noteDeleted_safe (h : Books env visits st log) (hv : v ∈ visits.rows)
    (ho : v.isOpen = true) : (noteDeleted v st st' log).Pairwise
      fun later earlier => ∀ id, later = .deleted id → earlier ≠ .duplicate id := by
  unfold noteDeleted
  split
  · refine List.pairwise_cons.mpr ⟨?_, h.safe⟩
    rintro x hx id hid rfl
    cases hid
    exact h.unnamed v hv ho hx
  · exact h.safe

/-- A step of an open request that writes to the store. -/
theorem Books.write (h : Books env visits st log) (hv : v ∈ visits.rows) (ho : v.isOpen = true)
    (hg : Grows env v st st') (hp : phase ≠ .arrived ∧ phase ≠ .claimed) :
    Books env (visits.move v phase) st' (noteDeleted v st st' log) := by
  refine ⟨fun u hu hou r' hr' hid => ?_, fun u hu hou hlog => ?_, h.noteDeleted_safe hv ho⟩
  · rcases (mem_move_of_mem hv).mp hu with ⟨hmem, hne⟩ | rfl
    · rcases hg r' hr' with ⟨r, hr, hrid, hhash⟩ | ⟨hrid, -⟩
      · exact hhash ▸ h.rows u hmem hou r hr (hrid.trans hid)
      · exact absurd (hid.symm.trans hrid) hne
    · rcases hg r' hr' with ⟨r, hr, hrid, hhash⟩ | ⟨-, hhash⟩
      · exact ⟨hhash.symm.trans (h.rows v hv ho r hr (hrid.trans hid)).1, hp⟩
      · exact ⟨hhash, hp⟩
  · rcases mem_noteDeleted hlog with hdel | hlog
    · cases hdel
    rcases (mem_move_of_mem hv).mp hu with ⟨hmem, -⟩ | rfl
    · exact h.unnamed u hmem hou hlog
    · exact h.unnamed v hv ho hlog

/-- A step of an open request that leaves the store alone. -/
theorem Books.move (h : Books env visits st log) (hv : v ∈ visits.rows) (ho : v.isOpen = true)
    (hp : phase ≠ .arrived ∧ phase ≠ .claimed) : Books env (visits.move v phase) st log := by
  have hkeep : noteDeleted v st st log = log := by
    unfold noteDeleted
    cases st.find v.id <;> simp
  exact hkeep ▸ h.write hv ho (fun r hr => .inl ⟨r, hr, rfl, rfl⟩) hp

theorem Books.claim (h : Books env visits st log) (hv : v ∈ visits.rows)
    (ha : v.phase = .arrived) : Books env (visits.move v .claimed) st log := by
  have ho : v.isOpen = true := by simp [Visit.isOpen, ha]
  refine ⟨fun u hu hou r hr hid => ?_, fun u hu hou hlog => ?_, h.safe⟩
  · rcases (mem_move_of_mem hv).mp hu with ⟨hmem, -⟩ | rfl
    · exact h.rows u hmem hou r hr hid
    · exact absurd ha (h.rows v hv ho r hr hid).2.1
  · rcases (mem_move_of_mem hv).mp hu with ⟨hmem, -⟩ | rfl
    · exact h.unnamed u hmem hou hlog
    · exact h.unnamed v hv ho hlog

theorem Books.answer {id : String} (h : Books env visits st log)
    (hid : ∀ v ∈ visits.rows, v.isOpen = true → v.id ≠ id) :
    Books env visits st (.duplicate id :: log) := by
  refine ⟨h.rows, fun v hv ho hlog => ?_, List.pairwise_cons.mpr ⟨?_, h.safe⟩⟩
  · rcases List.mem_cons.mp hlog with heq | hlog
    · exact hid v hv ho (Verdict.duplicate.inj heq)
    · exact h.unnamed v hv ho hlog
  · rintro x - id hdel
    cases hdel

theorem Books.arrive (h : Books env visits st log) (hst : st.find v.id = none)
    (hlog : .duplicate v.id ∉ log) : Books env (visits.insert v) st log := by
  refine ⟨fun u hu hou r hr hid => ?_, fun u hu hou => ?_, h.safe⟩
  · rcases Table.mem_insert hu with rfl | hu
    · exact absurd hid (Table.find_eq_none_iff.mp hst r hr)
    · exact h.rows u hu hou r hr hid
  · rcases Table.mem_insert hu with rfl | hu
    · exact hlog
    · exact h.unnamed u hu hou

/-- Somebody else's write keeps the ids and keys of the rows, or adds one nobody here waits for. -/
theorem Books.external (h : Books env visits st log)
    (hg : ∀ r' ∈ st'.rows, (∃ r ∈ st.rows, r.id = r'.id ∧ r.hash = r'.hash) ∨
      ∀ v ∈ visits.rows, v.id ≠ r'.id) : Books env visits st' log := by
  refine { h with rows := fun v hv ho r' hr' hid => ?_ }
  rcases hg r' hr' with ⟨r, hr, hrid, hhash⟩ | hnew
  · exact hhash ▸ h.rows v hv ho r hr (hrid.trans hid)
  · exact absurd hid.symm (hnew v hv)

end Books

namespace Server

variable {env : Env} {s t : Server} {v : Visit} {w : Answers} {a : Action}

def Sound (env : Env) (s : Server) : Prop :=
  Claims env s.visits s.held ∧ Books env s.visits s.store s.log

theorem fresh_iff {id : String} : s.fresh id = true ↔
    s.store.find id = none ∧ s.visits.find id = none ∧ .duplicate id ∉ s.log := by
  simp [fresh, and_assoc]

theorem sound_new (store : Store) : Sound env (new store) := by
  constructor <;> constructor <;> simp [new, Table.empty]

/-- No request asks the store for a key while a `/proxy` request for it stands between the release
of its claim and its decision, and the ledger names no job that is still being decided on here. -/
def unshared (env : Env) (s : Server) : Action → Bool
  | .checkOrInsert id _ => decide (∀ v ∈ s.visits.find id, ∀ v' ∈ s.visits.rows,
      v'.exposed = true → v'.hash env ≠ v.hash env)
  | .screen id w => decide (∀ v ∈ s.visits.find id, ∀ e ∈ w.lookup (v.hash env),
      ∀ v' ∈ s.visits.rows, v'.isOpen = true → v'.id ≠ e.jobID)
  | _ => true

theorem isOpen_of_phase {phase : Phase} (h : v.phase = phase) (hp : phase ≠ .done) :
    v.isOpen = true := by
  simp [Visit.isOpen, h, hp]

/-- An open request holds its claim, is exposed, or has not asked for one. -/
theorem holds_or_exposed (ho : v.isOpen = true) (ha : v.phase ≠ .arrived) :
    v.holds = true ∨ v.exposed = true := by
  cases hp : v.phase with
  | prepared => cases hr : v.route <;> simp [Visit.holds, Visit.exposed, hp, hr]
  | arrived => exact absurd hp ha
  | done => simp [Visit.isOpen, hp] at ho
  | claimed | inserted | fallback => simp [Visit.holds, Visit.exposed, hp]

/-- A row under the key of a request that holds its claim belongs to nobody still open. -/
theorem decided_of_row (h : Sound env s) (hv : v ∈ s.visits.rows) (hh : v.holds = true)
    (hrow : ∀ r ∈ s.store.rows, r.id ≠ v.id)
    (hex : ∀ v' ∈ s.visits.rows, v'.exposed = true → v'.hash env ≠ v.hash env) {r : Row}
    (hr : r ∈ s.store.rows) (hkey : r.hash = v.hash env) :
    ∀ v' ∈ s.visits.rows, v'.isOpen = true → v'.id ≠ r.id := by
  intro v' hv' ho hid
  obtain ⟨hhash, harr, -⟩ := h.2.rows v' hv' ho r hr hid.symm
  rcases holds_or_exposed ho harr with hh' | hex'
  · have heq := h.1.alone v' hv' v hv hh' hh (by rw [← hhash, hkey])
    exact hrow r hr (heq ▸ hid.symm)
  · exact hex v' hv' hex' (by rw [← hhash, hkey])

theorem sound_checkOrInsert (h : Sound env s) (hv : v ∈ s.visits.rows) (hp : v.phase = .claimed)
    (hex : ∀ v' ∈ s.visits.rows, v'.exposed = true → v'.hash env ≠ v.hash env) :
    Sound env (s.checkOrInsert env v w) := by
  have ho : v.isOpen = true := isOpen_of_phase hp (by simp)
  have hh : v.holds = true := by simp [Visit.holds, hp]
  have hrow : ∀ r ∈ s.store.rows, r.id ≠ v.id := fun r hr hid =>
    (h.2.rows v hv ho r hr hid).2.2 hp
  unfold checkOrInsert
  cases hk : s.store.findAlt (v.job.idempotencyHash env) with
  | some r =>
    rw [StoreWrite.checkOrInsert_taken hk]
    obtain ⟨hr, hkey⟩ := Table.findAlt_eq_some_iff.mp hk
    refine ⟨h.1.leave hv hh (by simp [Visit.holds, Visit.withPhase]), ?_⟩
    refine (h.2.write hv ho (Inherits.grows fun r hr => ⟨r, hr, rfl, rfl⟩) (by simp)).answer ?_
    intro v' hv' ho'
    rcases (mem_move_of_mem hv).mp hv' with ⟨hmem, -⟩ | rfl
    · exact decided_of_row h hv hh hrow hex hr hkey v' hmem ho'
    · simp [Visit.isOpen, Visit.withPhase] at ho'
  | none =>
    have hgrow : Grows env v s.store (if w.write.ok
        then s.store.insert (Store.newRow env v.job w.inserted) else s.store) := by
      intro r' hr'
      split at hr'
      · rcases Table.mem_insert hr' with rfl | hr'
        · exact .inr ⟨rfl, rfl⟩
        · exact .inl ⟨r', hr', rfl, rfl⟩
      · exact .inl ⟨r', hr', rfl, rfl⟩
    rw [StoreWrite.checkOrInsert_free hk (Table.find_eq_none_iff.mpr hrow)]
    exact ⟨h.1.move hv fun _ => hh, h.2.write hv ho hgrow (by simp)⟩

theorem sound_screen (h : Sound env s) (hv : v ∈ s.visits.rows) (hp : v.phase = .inserted)
    (hledger : ∀ e ∈ w.lookup (v.hash env), ∀ v' ∈ s.visits.rows, v'.isOpen = true →
      v'.id ≠ e.jobID) : Sound env (s.screen env v w) := by
  have ho : v.isOpen = true := isOpen_of_phase hp (by simp)
  have hh : v.holds = true := by simp [Visit.holds, hp]
  have hgone : Books env (s.visits.move v .done) (s.store.deleteJob v.id)
      (noteDeleted v s.store (s.store.deleteJob v.id) s.log) :=
    h.2.write hv ho inherits_filter.grows (by simp)
  have hleave : Claims env (s.visits.move v .done) (s.held.erase (v.hash env)) :=
    h.1.leave hv hh (by simp [Visit.holds, Visit.withPhase])
  unfold screen
  split
  · split
    · exact ⟨h.1.move hv fun _ => hh, h.2.move hv ho (by simp)⟩
    · next hroute =>
      exact ⟨h.1.leave hv hh (by simp [Visit.holds, Visit.withPhase, hroute]),
        h.2.move hv ho (by simp)⟩
  · next r hr =>
    refine ⟨hleave, hgone.answer fun v' hv' ho' => ?_⟩
    obtain ⟨e, he, hid⟩ := lookup_of_duplicate hr
    rcases (mem_move_of_mem hv).mp hv' with ⟨hmem, -⟩ | rfl
    · exact hid ▸ hledger e he v' hmem ho'
    · simp [Visit.isOpen, Visit.withPhase] at ho'
  · exact ⟨hleave, hgone⟩

/-- A request without a claim writes and moves on, or is done. -/
theorem sound_settle {st : Store} {phase : Phase} (h : Sound env s) (hv : v ∈ s.visits.rows)
    (ho : v.isOpen = true) (hinh : Inherits s.store st) (hp : phase = .done ∨ phase = .fallback) :
    Sound env ((s.write v st).move v phase) := by
  refine ⟨h.1.move hv fun hh => ?_, h.2.write hv ho hinh.grows ?_⟩
  · rcases hp with rfl | rfl <;> simp [Visit.holds, Visit.withPhase] at hh
  · rcases hp with rfl | rfl <;> simp

theorem sound_tryDirect (h : Sound env s) (hv : v ∈ s.visits.rows) (hp : v.phase = .prepared) :
    Sound env (s.tryDirect v w) := by
  have ho : v.isOpen = true := isOpen_of_phase hp (by simp)
  have hinh := inherits_tryDirect s.store v.req v.job w
  unfold tryDirect
  split
  · next he =>
    rw [he] at hinh
    exact sound_settle h hv ho hinh (by split <;> simp)
  · next he =>
    rw [he] at hinh
    exact sound_settle h hv ho hinh (.inl rfl)

theorem sound_dispatch (h : Sound env s) (hv : v ∈ s.visits.rows)
    (hstep : s.dispatch env v w = some t) : Sound env t := by
  have hinh := inherits_dispatch { store := s.store } v.job w
  unfold dispatch at hstep
  split at hstep
  · next hr hp =>
    have ho : v.isOpen = true := isOpen_of_phase hp (by simp)
    have hh : v.holds = true := by simp [Visit.holds, hp, hr]
    cases hstep
    exact ⟨h.1.leave hv hh (by simp [Visit.holds, Visit.withPhase]),
      (sound_settle h hv ho hinh (.inl rfl)).2⟩
  · next hr hp =>
    have ho : v.isOpen = true := isOpen_of_phase hp (by simp)
    split at hstep <;> cases hstep
    · exact ⟨h.1.move hv (by simp [Visit.holds, Visit.withPhase]), h.2.move hv ho (by simp)⟩
    · exact sound_settle h hv ho hinh (.inl rfl)
  · cases hstep

theorem sound_external {op : StoreOp} (h : Sound env s) (hf : op.insertedID.all s.fresh = true) :
    Sound env (s.external env op) := by
  have hold {st : Store} (hinh : Inherits s.store st) : Books env s.visits st s.log :=
    h.2.external fun r hr => .inl (hinh r hr)
  refine ⟨h.1, ?_⟩
  cases op with
  | checkOrInsert job now =>
    have hvis : ∀ v ∈ s.visits.rows, v.id ≠ job.id :=
      Table.find_eq_none_iff.mp (fresh_iff.mp hf).2.1
    refine h.2.external fun r hr => ?_
    rcases Store.mem_checkOrInsert hr with hr | rfl
    · exact .inl ⟨r, hr, rfl, rfl⟩
    · exact .inr hvis
  | deleteJob id => exact hold inherits_filter
  | deleteExpired now => exact hold inherits_filter
  | setQueueKey id key => exact hold inherits_setQueueKey
  | updateStatus id status now => exact hold inherits_updateStatus

theorem visit_of_step {id : String} {p : Visit → Prop} [DecidablePred p] {f : Visit → Server}
    (h : ((s.visits.find id).bind fun v => if p v then some (f v) else none) = some t) :
    ∃ v, s.visits.find id = some v ∧ v ∈ s.visits.rows ∧ p v ∧ t = f v := by
  obtain ⟨v, hfind, hstep⟩ := Option.bind_eq_some_iff.mp h
  obtain ⟨hp, ⟨⟩⟩ := Option.ite_none_right_eq_some.mp hstep
  exact ⟨v, hfind, (Table.find_eq_some_iff.mp hfind).1, hp, rfl⟩

theorem sound_step (h : Sound env s) (hok : s.unshared env a = true)
    (hstep : s.step env a = some t) : Sound env t := by
  cases a with
  | arrive route req w =>
    simp only [step] at hstep
    split at hstep
    · cases hstep
      exact h
    split at hstep
    · next hf =>
      cases hstep
      obtain ⟨hst, -, hlog⟩ := fresh_iff.mp hf
      exact ⟨h.1.arrive rfl, h.2.arrive hst hlog⟩
    · cases hstep
  | claim id =>
    obtain ⟨v, -, hv, ⟨hphase, hfree⟩, rfl⟩ := visit_of_step hstep
    exact ⟨h.1.enter hv hfree, h.2.claim hv hphase⟩
  | checkOrInsert id w =>
    obtain ⟨v, hfind, hv, hphase, rfl⟩ := visit_of_step hstep
    exact sound_checkOrInsert h hv hphase (of_decide_eq_true hok v hfind)
  | screen id w =>
    obtain ⟨v, hfind, hv, hphase, rfl⟩ := visit_of_step hstep
    exact sound_screen h hv hphase (of_decide_eq_true hok v hfind)
  | tryDirect id w =>
    obtain ⟨v, -, hv, ⟨hphase, -⟩, rfl⟩ := visit_of_step hstep
    exact sound_tryDirect h hv hphase
  | dispatch id w =>
    obtain ⟨v, hfind, hstep⟩ := Option.bind_eq_some_iff.mp hstep
    exact sound_dispatch h (Table.find_eq_some_iff.mp hfind).1 hstep
  | external op =>
    simp only [step] at hstep
    split at hstep
    · next hf =>
      cases hstep
      exact sound_external h hf
    · cases hstep

/-- A duplicate answer never names a job that is then rejected: nothing in the log is a deletion by
the request that created the job after a duplicate verdict on it. -/
theorem duplicates_stay (env : Env) (store : Store) (as : List Action) (s : Server)
    (hrun : Trace.exec (step env) (new store) as = some s)
    (hok : Trace.Along (step env) (fun s a => s.unshared env a = true) (new store) as) :
    s.log.Pairwise fun later earlier => ∀ id, later = .deleted id → earlier ≠ .duplicate id :=
  (Trace.exec_invariant sound_step (sound_new store)
    hok hrun).2.safe

/-- The first request's steps up to the point where its job is prepared. -/
def prepareFirst (route : Route) : List Action :=
  [.arrive route plainRequest { id := "1" }, .claim "1", .checkOrInsert "1" { id := "1" },
    .screen "1" { id := "1" }]

/-- A retry of a `/proxy` request comes in while its target is busy; then the queue is full. -/
def overtaken : List Action :=
  prepareFirst .proxy ++
  [.arrive .jobs plainRequest { id := "2" }, .claim "2", .checkOrInsert "2" { id := "2" },
    .tryDirect "1" { id := "1", queueActive := true },
    .dispatch "1" { id := "1", refusal := some (.admission { allowed := false }) }]

theorem overtaken_rejected : ∃ s, Trace.exec (step plainEnv) (new Table.empty) overtaken = some s ∧
    s.log = [.deleted "1", .duplicate "1"] ∧ s.store.rows = [] := by
  decide +kernel

/-- A retry of a `/jobs` request waits until the first has been handed over. -/
def waited : List Action :=
  prepareFirst .jobs ++
  [.arrive .proxy plainRequest { id := "2" }, .dispatch "1" { id := "1" }, .claim "2",
    .checkOrInsert "2" { id := "2" }]

theorem waited_stays : ∃ s, Trace.exec (step plainEnv) (new Table.empty) waited = some s ∧
    s.log = [.duplicate "1"] ∧
    s.log.Pairwise fun later earlier => ∀ id, later = .deleted id → earlier ≠ .duplicate id := by
  obtain ⟨s, hs, hlog⟩ : ∃ s, Trace.exec (step plainEnv) (new Table.empty) waited = some s ∧
      s.log = [.duplicate "1"] := by decide +kernel
  exact ⟨s, hs, hlog, duplicates_stay plainEnv Table.empty waited s hs (by decide +kernel)⟩

end Server

end Aquifer
