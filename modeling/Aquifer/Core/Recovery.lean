import Aquifer.Dispatch.Routing
import Aquifer.Lib.Trace

/-! Recovery after a restart, interleaved with the dispatching that its hand-offs cause. -/
namespace Aquifer

/-- The jobs stored under a key past a cursor, which a queue loads a page at a time. -/
structure Source where
  key : String
  after : PageCursor
deriving DecidableEq, Repr

/-- One account queue, numbered because the queue of a key can retire and be opened again. A
retired queue has left its worker and its run loop has returned. -/
structure Queue where
  num : Nat
  storeKey : String
  registered : Bool := true
  given : List String := []
  sources : List Source := []
deriving DecidableEq, Repr

abbrev Queues := Table Queue Queue.num Queue.num

namespace Queues

def queueFor (qs : Queues) (key : String) : Option Queue :=
  qs.rows.find? fun q => q.registered && q.storeKey = key

def give (qs : Queues) (num : Nat) (ids : List String) : Queues :=
  qs.update num (fun q => { q with given := ids ++ q.given }) fun _ => ⟨rfl, rfl⟩

def attachSpill (qs : Queues) (num : Nat) (src : Source) : Queues :=
  qs.update num (fun q => { q with sources := q.sources ++ [src] }) fun _ => ⟨rfl, rfl⟩

def retire (qs : Queues) (num : Nat) : Queues :=
  qs.update num (fun q => { q with registered := false }) fun _ => ⟨rfl, rfl⟩

/-- `reserve`: the registered queue of the key takes the job, opened first if there is none. -/
def reserve (qs : Queues) (key id : String) (num : Nat) : Option (Queues × Nat) :=
  match qs.queueFor key with
  | some q => some (qs.give q.num [id], q.num)
  | none =>
    if qs.find num = none then some (qs.insert { num, storeKey := key, given := [id] }, num)
    else none

end Queues

/-- A source after one page of it was loaded; a short page was its last. -/
def Source.advance (src : Source) (page : List Job) (size : Nat) : Option Source :=
  if page.length < size then none
  else some { src with after := Store.cursorAfter page src.after }

/-- One queue's `refill` from one of its sources. -/
def Queue.refill (q : Queue) (src : Source) (page : List Job) (size : Nat) : Queue :=
  { q with
    given := page.map Job.id ++ q.given
    sources := q.sources.filterMap fun x => if x = src then src.advance page size else some x }

/-- What recovery does next: hand over the jobs it has read, then go on with the rest. -/
inductive Task
  | idle
  | enqueue (jobs : List Job) (next : Task)
  | handoff (job : Job) (num : Nat) (next : Task)
  | pageAll (key : String) (after : PageCursor)
  | firstPage (key : String) (n : Nat)
  | attach (key : String) (last : Job)
  | attachTo (num : Nat) (key : String) (after : PageCursor)
deriving DecidableEq, Repr

/-- The hand-offs reserved on a queue whose key is not written yet. -/
def Task.hands : Task → List (Job × Nat)
  | .enqueue _ next => next.hands
  | .handoff job num next => (job, num) :: next.hands
  | _ => []

def Task.ids : Task → List String
  | .enqueue jobs next => jobs.map Job.id ++ next.ids
  | .handoff job _ next => job.id :: next.ids
  | _ => []

/-- Where `RecoverQueuedJobs` stands: before the first count, in the pass over the keys that cannot
be paged, in the pass over the rest, or returned. -/
inductive Pass
  | start
  | first (counts : List (String × Nat)) (todo : List String) (moved : Bool)
  | second (todo : List (String × Nat))
  | done
deriving DecidableEq, Repr

structure RecoveryConfig extends Routing where
  env : Env
  pageSize : Nat
  pageSize_pos : 0 < pageSize

/-- The node during recovery: its store, the queues, the destinations' account-queue answers, the
webhook jobs stored since recovery began and how far their hand-off is, and recovery itself. -/
structure Recovery where
  store : Store
  clock : Time
  destination : List (String × Bool) := []
  queues : Queues := Table.empty
  webhooks : List String := []
  sending : List Job := []
  handing : List (Job × Nat) := []
  seen : List String := []
  pass : Pass := .start
  task : Task := .idle

/-- A node that has just opened its store: no queue, no answer from any destination. -/
def Recovery.new (store : Store) (now : Time) : Recovery where
  store := store
  clock := now

inductive Recovery.Event
  | count (now : Time)
  | test (key : String) (now : Time)
  | recount (now : Time)
  | read (now : Time)
  | enqueue (num : Nat)
  | handOver
  | lookup
  | attach
  | finish
  | answer (domain : String) (on : Bool)
  | complete (id : String) (status : Status) (now : Time)
  | refill (num : Nat) (src : Source) (now : Time)
  | retire (num : Nat)
  | webhook (job : Job) (now : Time)
  | webhookEnqueue (job : Job) (num : Nat)
  | webhookHandOver (job : Job) (num : Nat)
  | cleanup (now : Time)
deriving DecidableEq, Repr

namespace Recovery

variable (c : RecoveryConfig) (s : Recovery)

/-- A worker's `accountQueueMode`: the destination's own answer, or else the node's default. -/
def mode (domain : String) : Bool :=
  (s.destination.lookup domain).getD c.accountQueueDefault

def storeKeyFor (job : Job) : String := c.toRouting.storeKeyFor (s.mode c) job

def hands : List (Job × Nat) := s.task.hands ++ s.handing

def pageable (key : String) (now : Time) : Bool :=
  if '|' ∉ key.toList then false
  else
    match (s.store.queuedPage key {} 0 1 now).head? with
    | none => true
    | some first => s.storeKeyFor c first = key

def count (now : Time) : Option Recovery :=
  match s.pass with
  | .start =>
    let counts := s.store.pendingQueueKeys now
    -- the total is zero only if no key has a row
    let pass := if counts = [] then .done else .first counts (counts.map Prod.fst) false
    some { s with clock := now, pass }
  | _ => none

/-- What the first pass does with a key it cannot page. -/
def loadAll (key : String) (now : Time) : Task :=
  if '|' ∉ key.toList then .enqueue (s.store.recoverQueued key now) .idle
  else .pageAll key {}

/-- Either pass takes its next key, in any order, and asks whether it is pageable. -/
def test (key : String) (now : Time) : Option Recovery :=
  match s.pass, s.task with
  | .first counts todo moved, .idle =>
    if key ∉ todo then none
    else if s.pageable c key now then
      some { s with clock := now, pass := .first counts (todo.erase key) moved }
    else
      some { s with
        clock := now
        pass := .first counts (todo.erase key) true
        task := s.loadAll key now }
  | .second todo, .idle =>
    (todo.lookup key).map fun n =>
      { s with
        clock := now
        pass := .second (todo.erase (key, n))
        task := if s.pageable c key now then .firstPage key n else .idle }
  | _, _ => none

/-- The second pass counts again only if the first one moved something. -/
def recount (now : Time) : Option Recovery :=
  match s.pass, s.task with
  | .first counts [] moved, .idle =>
    let todo := if moved then s.store.pendingQueueKeys now else counts
    some { s with clock := now, pass := .second todo }
  | _, _ => none

def afterFirst (key : String) (n : Nat) (page : List Job) : Task :=
  if page.length < c.pageSize ∨ n ≤ page.length then .idle
  else
    match page.getLast? with
    | none => .idle
    | some last => .attach key last

/-- One `QueuedPage` read, of `pageAll` or of the second pass. -/
def read (now : Time) : Option Recovery :=
  match s.task with
  | .pageAll key after =>
    let page := s.store.queuedPage key after 0 c.pageSize now
    let next :=
      if page.length < c.pageSize then .idle else .pageAll key (Store.cursorAfter page after)
    some { s with clock := now, task := .enqueue page next }
  | .firstPage key n =>
    let page := s.store.queuedPage key {} 0 c.pageSize now
    some { s with clock := now, task := .enqueue page (afterFirst c key n page) }
  | _ => none

/-- `enqueue` of the next job read: skipped if seen, else reserved on the queue it routes to. -/
def enqueue (num : Nat) : Option Recovery :=
  match s.task with
  | .enqueue [] next => some { s with task := next }
  | .enqueue (job :: jobs) next =>
    if job.id ∈ s.seen then some { s with task := .enqueue jobs next }
    else
      (s.queues.reserve (s.storeKeyFor c job) job.id num).map fun (queues, n) =>
        { s with queues, seen := job.id :: s.seen, task := .handoff job n (.enqueue jobs next) }
  | _ => none

/-- `handoff`: the job's row gets the queue's key and the job is sent. -/
def handOver : Option Recovery :=
  match s.task with
  | .handoff job num next =>
    (s.queues.find num).map fun q =>
      { s with store := s.store.setQueueKey job.id q.storeKey, task := next }
  | _ => none

/-- `AttachRecoveredBacklog` up to the lookup of the queue, outside whose lock it attaches. -/
def lookup : Option Recovery :=
  match s.task with
  | .attach key last =>
    let task :=
      match s.queues.queueFor (s.storeKeyFor c last) with
      | some q => .attachTo q.num key (cursorAt last)
      | none => .pageAll key (cursorAt last)
    some { s with task }
  | _ => none

def attach : Option Recovery :=
  match s.task with
  | .attachTo num key after =>
    some { s with queues := s.queues.attachSpill num ⟨key, after⟩, task := .idle }
  | _ => none

def finish : Option Recovery :=
  match s.pass, s.task with
  | .second [], .idle => some { s with pass := .done }
  | _, _ => none

def complete (id : String) (status : Status) (now : Time) : Option Recovery :=
  if status.pending = false ∧ s.queues.rows.any fun q => id ∈ q.given then
    some { s with clock := now, store := s.store.updateStatus id status now }
  else none

def refill (num : Nat) (src : Source) (now : Time) : Option Recovery :=
  (s.queues.find num).bind fun q =>
    if q.registered ∧ src ∈ q.sources then
      let page := s.store.queuedPage src.key src.after 0 c.pageSize now
      some { s with
        clock := now
        queues := s.queues.update num (fun q => q.refill src page c.pageSize) fun _ => ⟨rfl, rfl⟩ }
    else none

/-- An idle queue retires once its backlog is zero: nothing given to it is unfinished, nothing is
reserved on it and no source is attached. -/
def retire (num : Nat) : Option Recovery :=
  (s.queues.find num).bind fun q =>
    if q.registered ∧ q.sources = [] ∧ (∀ h ∈ s.hands, h.2 ≠ num) ∧
        ∀ r ∈ s.store.rows, r.id ∈ q.given → r.pending = false then
      some { s with queues := s.queues.retire num }
    else none

/-- No stored job has the id, and no queue, webhook or page read so far had it. -/
def unused (id : String) : Bool :=
  (s.store.find id).isNone && id ∉ s.webhooks && id ∉ s.seen && id ∉ s.task.ids &&
    s.queues.rows.all fun q => id ∉ q.given

theorem unused_iff {s : Recovery} {id : String} : s.unused id = true ↔ s.store.find id = none ∧
    id ∉ s.webhooks ∧ id ∉ s.seen ∧ id ∉ s.task.ids ∧ ∀ q ∈ s.queues.rows, id ∉ q.given := by
  simp only [unused, Bool.and_eq_true, Option.isNone_iff_eq_none, decide_eq_true_iff,
    List.all_eq_true, and_assoc]

/-- `EnqueueWebhook` up to its `CheckOrInsert`; the id `NewID` draws is an unused one. -/
def webhook (job : Job) (now : Time) : Option Recovery :=
  if s.unused job.id then
    match s.store.findAlt (job.idempotencyHash c.env) with
    | some _ => some { s with clock := now }
    | none =>
      some { s with
        clock := now
        store := (s.store.checkOrInsert c.env job now).1
        webhooks := job.id :: s.webhooks
        sending := job :: s.sending }
  else none

def webhookEnqueue (job : Job) (num : Nat) : Option Recovery :=
  if job ∈ s.sending then
    (s.queues.reserve (s.storeKeyFor c job) job.id num).map fun (queues, n) =>
      { s with queues, sending := s.sending.erase job, handing := (job, n) :: s.handing }
  else none

def webhookHandOver (job : Job) (num : Nat) : Option Recovery :=
  if (job, num) ∈ s.handing then
    (s.queues.find num).map fun q =>
      { s with
        store := s.store.setQueueKey job.id q.storeKey
        handing := s.handing.erase (job, num) }
  else none

def step : Event → Option Recovery
  | .count now => s.count now
  | .test key now => s.test c key now
  | .recount now => s.recount now
  | .read now => s.read c now
  | .enqueue num => s.enqueue c num
  | .handOver => s.handOver
  | .lookup => s.lookup c
  | .attach => s.attach
  | .finish => s.finish
  | .answer domain on => some { s with destination := (domain, on) :: s.destination }
  | .complete id status now => s.complete id status now
  | .refill num src now => s.refill c num src now
  | .retire num => s.retire num
  | .webhook job now => s.webhook c job now
  | .webhookEnqueue job num => s.webhookEnqueue c job num
  | .webhookHandOver job num => s.webhookHandOver job num
  | .cleanup now => some { s with clock := now, store := s.store.deleteExpired now }

/-- No destination changes its account-queue mode, the queue looked up is still registered when the
source is attached to it, a webhook job sorts after every stored one, and the clock does not run
backwards. -/
def steady : Event → Bool
  | .answer domain on => s.mode c domain = on
  | .attach =>
    match s.task with
    | .attachTo num _ _ => s.queues.rows.any fun q => q.num = num && q.registered
    | _ => true
  | .webhook job now => s.clock ≤ now && s.store.rows.all fun r => (cursorAt job).covers r.job
  | .count now | .test _ now | .recount now | .read now | .complete _ _ now | .refill _ _ now
  | .cleanup now => s.clock ≤ now
  | _ => true

/-- The branches of `step`, one by one. -/
inductive Moves : Event → Recovery → Prop
  | beginEmpty {now} (hp : s.pass = .start) (hc : s.store.pendingQueueKeys now = []) :
    Moves (.count now) { s with clock := now, pass := .done }
  | begin {now counts} (hp : s.pass = .start) (hc : s.store.pendingQueueKeys now = counts) :
    Moves (.count now)
      { s with clock := now, pass := .first counts (counts.map Prod.fst) false }
  | keep {key now counts todo moved} (hp : s.pass = .first counts todo moved)
    (ht : s.task = .idle) (hk : key ∈ todo) (hg : s.pageable c key now = true) :
    Moves (.test key now) { s with clock := now, pass := .first counts (todo.erase key) moved }
  | load {key now counts todo moved} (hp : s.pass = .first counts todo moved)
    (ht : s.task = .idle) (hk : key ∈ todo) (hg : s.pageable c key now = false) :
    Moves (.test key now)
      { s with
        clock := now
        pass := .first counts (todo.erase key) true
        task := s.loadAll key now }
  | take {key now todo n} (hp : s.pass = .second todo) (ht : s.task = .idle)
    (hk : (key, n) ∈ todo) (hg : s.pageable c key now = true) :
    Moves (.test key now)
      { s with clock := now, pass := .second (todo.erase (key, n)), task := .firstPage key n }
  | skip {key now todo n} (hp : s.pass = .second todo) (ht : s.task = .idle)
    (hk : (key, n) ∈ todo) (hg : s.pageable c key now = false) :
    Moves (.test key now)
      { s with clock := now, pass := .second (todo.erase (key, n)), task := .idle }
  | recount {now counts moved} (hp : s.pass = .first counts [] moved) (ht : s.task = .idle) :
    Moves (.recount now)
      { s with
        clock := now
        pass := .second (if moved then s.store.pendingQueueKeys now else counts) }
  | readPage {now key after page} (ht : s.task = .pageAll key after)
    (hpage : s.store.queuedPage key after 0 c.pageSize now = page) :
    Moves (.read now)
      { s with
        clock := now
        task := .enqueue page (if page.length < c.pageSize then .idle
          else .pageAll key (Store.cursorAfter page after)) }
  | readFirst {now key n page} (ht : s.task = .firstPage key n)
    (hpage : s.store.queuedPage key {} 0 c.pageSize now = page) :
    Moves (.read now)
      { s with clock := now, task := .enqueue page (afterFirst c key n page) }
  | enqueued {num next} (ht : s.task = .enqueue [] next) :
    Moves (.enqueue num) { s with task := next }
  | again {num job jobs next} (ht : s.task = .enqueue (job :: jobs) next)
    (hseen : job.id ∈ s.seen) : Moves (.enqueue num) { s with task := .enqueue jobs next }
  | reserve {num job jobs next queues n} (ht : s.task = .enqueue (job :: jobs) next)
    (hq : s.queues.reserve (s.storeKeyFor c job) job.id num = some (queues, n)) :
    Moves (.enqueue num)
      { s with queues, seen := job.id :: s.seen, task := .handoff job n (.enqueue jobs next) }
  | handOver {job num next q} (ht : s.task = .handoff job num next)
    (hq : s.queues.find num = some q) :
    Moves .handOver { s with store := s.store.setQueueKey job.id q.storeKey, task := next }
  | found {key last q} (ht : s.task = .attach key last)
    (hq : s.queues.queueFor (s.storeKeyFor c last) = some q) :
    Moves .lookup { s with task := .attachTo q.num key (cursorAt last) }
  | missing {key last} (ht : s.task = .attach key last)
    (hq : s.queues.queueFor (s.storeKeyFor c last) = none) :
    Moves .lookup { s with task := .pageAll key (cursorAt last) }
  | attach {num key after} (ht : s.task = .attachTo num key after) :
    Moves .attach { s with queues := s.queues.attachSpill num ⟨key, after⟩, task := .idle }
  | finish (hp : s.pass = .second []) (ht : s.task = .idle) :
    Moves .finish { s with pass := .done }
  | answer {domain on} :
    Moves (.answer domain on) { s with destination := (domain, on) :: s.destination }
  | complete {id status now} (hst : status.pending = false) :
    Moves (.complete id status now)
      { s with clock := now, store := s.store.updateStatus id status now }
  | refill {num src now q page} (hq : s.queues.find num = some q) (hr : q.registered = true)
    (hsrc : src ∈ q.sources)
    (hpage : s.store.queuedPage src.key src.after 0 c.pageSize now = page) :
    Moves (.refill num src now)
      { s with
        clock := now
        queues := s.queues.update num (fun q => q.refill src page c.pageSize) fun _ => ⟨rfl, rfl⟩ }
  | retire {num q} (hq : s.queues.find num = some q) (hsrc : q.sources = [])
    (hidle : ∀ r ∈ s.store.rows, r.id ∈ q.given → r.pending = false) :
    Moves (.retire num) { s with queues := s.queues.retire num }
  | webhookKnown {job now} : Moves (.webhook job now) { s with clock := now }
  | webhook {job now} (hid : s.unused job.id = true) :
    Moves (.webhook job now)
      { s with
        clock := now
        store := (s.store.checkOrInsert c.env job now).1
        webhooks := job.id :: s.webhooks
        sending := job :: s.sending }
  | webhookEnqueue {job num queues n} (hj : job ∈ s.sending)
    (hq : s.queues.reserve (s.storeKeyFor c job) job.id num = some (queues, n)) :
    Moves (.webhookEnqueue job num)
      { s with queues, sending := s.sending.erase job, handing := (job, n) :: s.handing }
  | webhookHandOver {job num q} (hj : (job, num) ∈ s.handing) (hq : s.queues.find num = some q) :
    Moves (.webhookHandOver job num)
      { s with
        store := s.store.setQueueKey job.id q.storeKey
        handing := s.handing.erase (job, num) }
  | cleanup {now} :
    Moves (.cleanup now) { s with clock := now, store := s.store.deleteExpired now }

variable {c s} {t : Recovery} {e : Event}

theorem mem_of_lookup {α β : Type} [BEq α] [LawfulBEq α] {l : List (α × β)} {a : α} {b : β}
    (h : l.lookup a = some b) : (a, b) ∈ l := by
  obtain ⟨l₁, l₂, rfl, -⟩ := List.lookup_eq_some_iff.mp h
  simp

theorem moves_of_test {key : String} {now : Time} (h : s.test c key now = some t) :
    s.Moves c (.test key now) t := by
  unfold test at h
  split at h
  next counts todo moved hp ht =>
    split_ifs at h with hk hg <;> cases h
    · exact .keep hp ht hk hg
    · exact .load hp ht hk (Bool.eq_false_iff.mpr hg)
  next todo hp ht =>
    obtain ⟨n, hn, rfl⟩ := Option.map_eq_some_iff.mp h
    by_cases hg : s.pageable c key now = true
    · rw [if_pos hg]
      exact .take hp ht (mem_of_lookup hn) hg
    · rw [if_neg hg]
      exact .skip hp ht (mem_of_lookup hn) (Bool.eq_false_iff.mpr hg)
  next => cases h

theorem moves_of_enqueue {num : Nat} (h : s.enqueue c num = some t) :
    s.Moves c (.enqueue num) t := by
  unfold enqueue at h
  split at h
  next next ht =>
    cases h
    exact .enqueued ht
  next job jobs next ht =>
    split_ifs at h with hseen
    · cases h
      exact .again ht hseen
    · obtain ⟨⟨queues, n⟩, hq, rfl⟩ := Option.map_eq_some_iff.mp h
      exact .reserve ht hq
  next => cases h

theorem moves_of_webhook {job : Job} {now : Time} (h : s.webhook c job now = some t) :
    s.Moves c (.webhook job now) t := by
  unfold webhook at h
  split_ifs at h with hid
  split at h <;> cases h
  · exact .webhookKnown
  · exact .webhook hid

theorem moves_of_step (h : s.step c e = some t) : s.Moves c e t := by
  cases e with
  | count now =>
    simp only [step, count] at h
    split at h <;> cases h
    split_ifs with hc
    · exact .beginEmpty ‹_› hc
    · exact .begin ‹_› rfl
  | test key now => exact moves_of_test h
  | recount now =>
    simp only [step, recount] at h
    split at h <;> cases h
    exact .recount ‹_› ‹_›
  | read now =>
    simp only [step, read] at h
    split at h <;> cases h
    · exact .readPage ‹_› rfl
    · exact .readFirst ‹_› rfl
  | enqueue num => exact moves_of_enqueue h
  | handOver =>
    simp only [step, handOver] at h
    split at h
    · obtain ⟨q, hq, rfl⟩ := Option.map_eq_some_iff.mp h
      exact .handOver ‹_› hq
    · cases h
  | lookup =>
    simp only [step, lookup] at h
    split at h
    next key last ht =>
      cases hq : s.queues.queueFor (s.storeKeyFor c last) <;> rw [hq] at h <;> cases h
      · exact .missing ht hq
      · exact .found ht hq
    next => cases h
  | attach =>
    simp only [step, attach] at h
    split at h <;> cases h
    exact .attach ‹_›
  | finish =>
    simp only [step, finish] at h
    split at h <;> cases h
    exact .finish ‹_› ‹_›
  | answer domain on =>
    cases h
    exact .answer
  | complete id status now =>
    simp only [step, complete] at h
    split_ifs at h with hst
    cases h
    exact .complete hst.1
  | refill num src now =>
    simp only [step, refill] at h
    obtain ⟨q, hq, h⟩ := Option.bind_eq_some_iff.mp h
    split_ifs at h with hr
    cases h
    exact .refill hq hr.1 hr.2 rfl
  | retire num =>
    simp only [step, retire] at h
    obtain ⟨q, hq, h⟩ := Option.bind_eq_some_iff.mp h
    split_ifs at h with hr
    cases h
    exact .retire hq hr.2.1 hr.2.2.2
  | webhook job now => exact moves_of_webhook h
  | webhookEnqueue job num =>
    simp only [step, webhookEnqueue] at h
    split_ifs at h with hj
    obtain ⟨⟨queues, n⟩, hq, rfl⟩ := Option.map_eq_some_iff.mp h
    exact .webhookEnqueue hj hq
  | webhookHandOver job num =>
    simp only [step, webhookHandOver] at h
    split_ifs at h with hj
    obtain ⟨q, hq, rfl⟩ := Option.map_eq_some_iff.mp h
    exact .webhookHandOver hj hq
  | cleanup now =>
    cases h
    exact .cleanup

end Recovery

end Aquifer
