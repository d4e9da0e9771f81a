import Aquifer.Dispatch.Lifecycle
import Mathlib.Data.Multiset.AddSub
import Mathlib.Logic.Relation

/-! What a queue's backlog counts, as its own machine: hand-offs, disk sources and held jobs. -/
namespace Aquifer

/-- The row a job's hand-off was made for: a page cursor treats the two alike. -/
def Row.Is (r : Row) (job : Job) : Prop := r.id = job.id ∧ r.job.createdAt = job.createdAt

theorem Row.Is.covers {r : Row} {job : Job} (h : r.Is job) (cursor : PageCursor) :
    cursor.covers r.job = cursor.covers job := by
  have hid : r.job.id = job.id := h.1
  simp only [PageCursor.covers, h.2, hid]

/-- A source that consumes the job if it counts it, and one that also moves on to it. -/
def SpillSource.spend (src : SpillSource) (job : Job) : SpillSource :=
  { src with consumed := if src.counts job then src.consumed + 1 else src.consumed }

def SpillSource.handOver (src : SpillSource) (job : Job) : SpillSource :=
  { src.spend job with after := cursorAt job }

/-- The queue as its backlog count sees it. A held job is closed between its terminal write and
the end of its attempt, and ended after it, as is one failed on disk; a hand-off is `handed` once
its row has the queue's key. -/
structure Tally where
  held : Finset String
  closed : Finset String
  ended : Finset String
  reserved : Multiset Job
  handed : Multiset Job
  sources : List SpillSource
  store : Store
  backlog : Int

/-- The steps that are made of turns: all but the hand-offs', those that attach a source, those of
others on the store, and panics and stops. -/
def Event.inner : Event → Bool
  | .reserve _ | .setKey _ | .attachSpill _ _ _ _ | .external _ | .recvCmd _ _ | .panic _ | .stop =>
      false
  | _ => true

/-- The steps that read pages from the store. -/
def Event.reads : Event → Bool
  | .refillPage _ _ | .sweepPage _ => true
  | _ => false

/-- The job a note says the queue has ended. -/
def Note.endedID : Note → Option String
  | .jobDone id | .swept id => some id
  | _ => none

namespace Tally

def reserve (l : Tally) (job : Job) : Tally :=
  { l with reserved := job ::ₘ l.reserved, backlog := l.backlog + 1 }

def setKey (l : Tally) (key : String) (job : Job) : Tally :=
  { l with
    reserved := l.reserved.erase job
    handed := job ::ₘ l.handed
    store := l.store.setQueueKey job.id key }

def attach (l : Tally) (src : SpillSource) : Tally :=
  { l with sources := l.sources ++ [src], backlog := l.backlog + src.reserved }

/-- A hand-off is taken from the channel, and its job kept or not. -/
def drop (l : Tally) (job : Job) : Tally := { l with handed := l.handed.erase job }

def accept (l : Tally) (job : Job) : Tally := { l.drop job with held := insert job.id l.held }

def close (l : Tally) (id : String) (status : Status) (now : Time) : Tally :=
  { l with closed := insert id l.closed, store := l.store.updateStatus id status now }

def retry (l : Tally) (id : String) (attempts : Int) : Tally :=
  { l with store := l.store.recordRetry id attempts }

def settle (l : Tally) (id : String) : Tally :=
  { l with
    held := l.held.erase id
    closed := l.closed.erase id
    ended := insert id l.ended
    backlog := l.backlog - 1 }

/-- The first source's next job, loaded from disk. -/
def load (l : Tally) (src : SpillSource) (rest : List SpillSource) (job : Job) : Tally :=
  { l with
    held := insert job.id l.held
    sources := src.handOver job :: rest
    backlog := if job.id ∈ l.held ∧ src.counts job then l.backlog - 1 else l.backlog }

def finish (l : Tally) (src : SpillSource) (rest : List SpillSource) : Tally :=
  { l with sources := rest, backlog := l.backlog - (src.reserved - src.consumed : Nat) }

/-- A job of the source at index `i`, failed on disk. -/
def sweep (l : Tally) (i : Nat) (src : SpillSource) (now : Time) (job : Job) : Tally :=
  { l with
    ended := insert job.id l.ended
    sources := l.sources.set i (src.spend job)
    backlog := l.backlog - 1
    store := l.store.updateStatus job.id .failed now }

def external (l : Tally) (store : Store) : Tally := { l with store }

/-- A recovered panic with no attempt in flight: nothing is held and every source starts over. -/
def restart (l : Tally) (key : String) : Tally :=
  { l with
    held := ∅
    closed := ∅
    ended := ∅
    sources :=
      if (l.sources.map SpillSource.restart).any (·.key = key) then
        l.sources.map SpillSource.restart
      else l.sources.map SpillSource.restart ++ [{ key }] }

/-- One turn inside a step of the loop or of an attempt: a job is closed, retried or settled, or
a page load or a sweep gets to its next job. -/
inductive Turn : Event → Tally → Tally → Prop
  | close {e : Event} {l : Tally} {id : String} {status : Status} {now : Time}
      (he : e.reads = false) (hheld : id ∈ l.held) (hst : status.pending = false) :
      Turn e l (l.close id status now)
  | retry {l : Tally} {i : Nat} {x : Exchange} {id : String} {attempts : Int} (hheld : id ∈ l.held)
      (hopen : id ∉ l.closed) : Turn (.execute i x) l (l.retry id attempts)
  | settle {e : Event} {l : Tally} {id : String} (he : e.reads = false) (hheld : id ∈ l.held)
      (hclosed : id ∈ l.closed) : Turn e l (l.settle id)
  | load {l : Tally} {now clock : Time} {src : SpillSource} {rest : List SpillSource} {r : Row}
      (hs : l.sources = src :: rest) (hr : r ∈ l.store.pendingUnder src.key clock)
      (ha : src.after.covers r.job = false)
      (hnext : ∀ r' ∈ l.store.pendingUnder src.key clock, src.after.covers r'.job = false →
        r' = r ∨ (cursorAt r.job).covers r'.job = false) :
      Turn (.refillPage now clock) l (l.load src rest r.job.asQueued)
  | finish {l : Tally} {now clock : Time} {src : SpillSource} {rest : List SpillSource}
      (hs : l.sources = src :: rest)
      (hall : ∀ r ∈ l.store.pendingUnder src.key clock, src.after.covers r.job = true) :
      Turn (.refillPage now clock) l (l.finish src rest)
  | sweep {l : Tally} {clock now : Time} {i : Nat} {src : SpillSource} {r : Row}
      (hs : l.sources[i]? = some src) (hr : r ∈ l.store.rows) (hk : r.queueKey = src.key)
      (hp : r.pending = true) (ha : src.after.covers r.job = false) (hheld : r.id ∉ l.held) :
      Turn (.sweepPage clock) l (l.sweep i src now r.job.asQueued)

def Turns (e : Event) : Tally → Tally → Prop := Relation.ReflTransGen (Turn e)

theorem Turns.of_eq {e : Event} {l l' : Tally} (h : l' = l) : Turns e l l' := h ▸ .refl

/-- What the steps of one event keep, its turns keep. -/
theorem Turns.keep {e : Event} {l l' : Tally} {P : Tally → Prop} (ht : Turns e l l') (hP : P l)
    (hturn : ∀ {l l'}, Turn e l l' → P l → P l') : P l' := by
  induction ht with
  | refl => exact hP
  | tail _ hstep ih => exact hturn hstep ih

end Tally

namespace AccountQueue

variable {c : QueueConfig} {q t : AccountQueue} {e : Event} {id : String} {job : Job} {now : Time}
  {src : SpillSource} {reason : String} {i : Nat}

def closedIds (q : AccountQueue) : Finset String := (q.closedJobs.map Job.id).toFinset

def endedIds (q : AccountQueue) : Finset String := (q.log.filterMap Note.endedID).toFinset

def tally (q : AccountQueue) : Tally where
  held := q.present
  closed := q.closedIds
  ended := q.endedIds
  reserved := q.reserved
  handed := q.stored ++ q.cmds
  sources := q.sources
  store := q.store
  backlog := q.backlog

theorem mem_closedIds : id ∈ q.closedIds ↔ 0 < (q.closedJobs.map Job.id).count id := by
  rw [closedIds, List.mem_toFinset, List.count_pos_iff]

/-- The sweep is at or past the cursor of the source it reads. -/
def SweepAhead (q : AccountQueue) : Prop :=
  ∀ w, q.sweep = some w → ∀ src, q.spills[w.index]? = some src → src.after.pos ≤ w.cursor.pos

theorem Orderly.not_mem_closedIds (h : Orderly q) (hopen : 0 < (q.openJobs.map Job.id).count id) :
    id ∉ q.closedIds := by
  have hsum := openIds_count_add_closed q id
  have honce := (h.books id).once
  rw [mem_closedIds]
  split at honce <;> omega

theorem Orderly.mem_present (h : Orderly q) (hheld : 0 < q.heldIds.count id) : id ∈ q.present := by
  rw [(h.books id).mem_present_iff]
  exact List.count_pos_iff.mp hheld

/-- A queued or waiting job fails: its row first, then the count. -/
theorem turns_failHeld {u : AccountQueue} (h : Orderly u) (he : e.reads = false)
    (hopen : 0 < (u.openJobs.map Job.id).count id) (hp : q.present = u.present)
    (hcl : q.closedJobs = u.closedJobs) (hr : q.reserved = u.reserved)
    (hh : q.stored ++ q.cmds = u.stored ++ u.cmds) (hs : q.sources = u.sources)
    (hst : q.store = u.store) (hb : q.backlog = u.backlog) (hended : q.endedIds = u.endedIds) :
    Tally.Turns e u.tally (q.failHeld id reason now).tally := by
  have hheld : id ∈ u.present := by
    have hsum := openIds_count_add_closed u id
    exact h.mem_present (by omega)
  have hnc := h.not_mem_closedIds hopen
  have hclose : Tally.Turn e u.tally (u.tally.close id .failed now) := .close he hheld rfl
  have hsettle : Tally.Turn e (u.tally.close id .failed now)
      ((u.tally.close id .failed now).settle id) :=
    .settle he hheld (Finset.mem_insert_self _ _)
  have htally : (q.failHeld id reason now).tally = (u.tally.close id .failed now).settle id := by
    simp only [tally, Tally.close, Tally.settle, Tally.mk.injEq]
    refine ⟨?_, ?_, ?_, ?_, ?_, hs, ?_, ?_⟩
    · rw [← hp]; rfl
    · rw [Finset.erase_insert hnc, closedIds, closedIds, ← hcl]; rfl
    · rw [← hended]; exact List.toFinset_cons
    · rw [← hr]; rfl
    · rw [← Multiset.coe_eq_coe.mpr (.of_eq hh)]; rfl
    · rw [← hst]; rfl
    · rw [← hb]; rfl
  rw [htally]
  exact .tail (.single hclose) hsettle

theorem tally_hold (q : AccountQueue) (job : Job) :
    (q.hold job).tally = { q.tally with held := insert job.id q.present } := by
  obtain ⟨d, hd⟩ := hold_eq q job
  rw [hd]
  rfl

theorem consume_eq (hs : q.spills[i]? = some src) (job : Job) :
    q.consume i job = { q with spills := q.spills.set i (src.spend job) } := by
  have hcount : q.countsAt i job = src.counts job := by simp [countsAt, hs]
  obtain ⟨hi, rfl⟩ := List.getElem?_eq_some_iff.mp hs
  unfold consume
  rw [hcount]
  cases hc : q.spills[i].counts job with
  | true =>
    have hset : q.spills.modify i (fun src => { src with consumed := src.consumed + 1 }) =
        q.spills.set i (q.spills[i].spend job) := by
      refine List.ext_getElem? fun j => ?_
      rw [List.getElem?_modify, List.getElem?_set]
      split
      · next h => simp [← h, hi, SpillSource.spend, hc]
      · simp
    rw [if_pos rfl, hset]
  | false =>
    have hset : q.spills.set i (q.spills[i].spend job) = q.spills := by
      rw [SpillSource.spend, hc]
      exact List.set_getElem_self hi
    rw [if_neg (by simp), hset]

theorem tally_loadNext {rest : List SpillSource} (hs : q.spills = src :: rest) (job : Job) :
    (q.loadNext job).tally = q.tally.load src (rest ++ q.spillPending) job := by
  have hcount : q.countsAt 0 job = src.counts job := by simp [countsAt, hs]
  have hcons : q.consume 0 job = { q with spills := src.spend job :: rest } := by
    rw [consume_eq (by rw [hs]; rfl), hs]
    rfl
  have hkeep : job.id ∈ q.present → q.tally.held = insert job.id q.tally.held := fun hp =>
    (Finset.insert_eq_of_mem hp).symm
  unfold loadNext loadJob
  rw [Tally.load, hcount]
  by_cases hp : job.id ∈ q.present
  · rw [if_pos hp, ← hkeep hp]
    cases hc : src.counts job with
    | true =>
      rw [if_pos rfl, if_pos (show job.id ∈ q.tally.held ∧ true = true from ⟨hp, rfl⟩), hcons]
      rfl
    | false =>
      rw [if_neg (by simp), if_neg (by simp), SpillSource.handOver, SpillSource.spend, hc]
      simp only [tally, sources, setAfter, hs]
      rfl
  · rw [if_neg hp, if_neg (show ¬ (job.id ∈ q.tally.held ∧ _) from fun h => hp h.1), hcons]
    obtain ⟨d, hd⟩ := hold_eq { q with spills := src.spend job :: rest } job
    rw [hd]
    rfl

theorem tally_finishSpill {rest : List SpillSource} (hs : q.spills = src :: rest) :
    q.finishSpill.tally = q.tally.finish src (rest ++ q.spillPending) := by
  unfold finishSpill
  rw [hs]
  rfl

theorem tally_sweepJob (hs : q.spills[i]? = some src) (hp : job.id ∉ q.present)
    (hexp : job.queueExpired now = true) :
    (q.sweepJob i now job).tally = q.tally.sweep i src now job := by
  have hi : i < q.spills.length := (List.getElem?_eq_some_iff.mp hs).1
  unfold sweepJob
  rw [if_neg (by simp [hp, hexp]), consume_eq hs]
  simp only [Tally.sweep, tally, sources, List.set_append_left _ _ hi, Tally.mk.injEq,
    true_and, and_true]
  exact ⟨rfl, List.toFinset_cons⟩

theorem turns_execute {a b : List Attempt} {x : Exchange} (h : Orderly q)
    (hq : q.running = a ++ ⟨job, none⟩ :: b) (hx : x.response ≠ .cancelled) :
    Tally.Turns (.execute i x) q.tally ({ q.applyEffect job.id x.now (Aquifer.execute job x).1 with
      running := a ++ ⟨(Aquifer.execute job x).2.1, some (Aquifer.execute job x).2.2⟩ :: b } :
      AccountQueue).tally := by
  have hheld : job.id ∈ q.present := by
    refine h.mem_present ?_
    simp only [heldIds_count, hq, List.map_append, List.map_cons, List.count_append,
      List.count_cons_self]
    omega
  have hclosed : ∀ y : Attempt, { q with running := a ++ y :: b }.closedIds =
      (y.closedJob.toList.map Job.id).toFinset ∪ q.closedIds := by
    intro y
    ext i
    have hnone : (⟨job, none⟩ : Attempt).closedJob = none := rfl
    cases hy : y.closedJob <;>
      simp [closedIds, closedJobs, hq, hy, hnone]
  rcases execute_cases job x with ⟨status, reason, hst, he, hj, hr⟩ |
    ⟨time, reason, -, he, hj, hr⟩ | ⟨hc, -⟩
  · rw [he, hj]
    refine .single ?_
    have heq : ({ q.applyEffect job.id x.now (.terminal status reason) with
        running := a ++ ⟨job, some (Aquifer.execute job x).2.2⟩ :: b } : AccountQueue).tally =
        q.tally.close job.id status x.now := by
      have := hclosed ⟨job, some (Aquifer.execute job x).2.2⟩
      simp only [Attempt.closedJob, Option.any_some, hr, Option.isNone_none, if_true] at this
      simp only [tally, Tally.close, Tally.mk.injEq]
      exact ⟨rfl, this, rfl, rfl, rfl, rfl, rfl, rfl⟩
    rw [heq]
    exact .close rfl hheld hst
  · rw [he, hj]
    refine .single ?_
    have heq : ({ q.applyEffect job.id x.now (.retry (job.attempts + 1)) with
        running := a ++ ⟨{ job with attempts := job.attempts + 1 },
          some (Aquifer.execute job x).2.2⟩ :: b } : AccountQueue).tally =
        q.tally.retry job.id (job.attempts + 1) := by
      have := hclosed ⟨{ job with attempts := job.attempts + 1 }, some (Aquifer.execute job x).2.2⟩
      simp only [Attempt.closedJob, Option.any_some, hr, Option.isNone_some, Bool.false_eq_true,
        if_false] at this
      simp only [tally, Tally.retry, Tally.mk.injEq]
      exact ⟨rfl, this.trans (Finset.empty_union _), rfl, rfl, rfl, rfl, rfl, rfl⟩
    rw [heq]
    refine .retry hheld (h.not_mem_closedIds ?_)
    simp only [openIds_count, hq, List.filterMap_append, List.filterMap_cons, Attempt.openJob,
      Option.all_none, if_true, List.map_append, List.map_cons, List.count_append,
      List.count_cons_self]
    omega
  · exact absurd hc hx

theorem tally_hear (q : AccountQueue) (o : Outcome) (now : Time) :
    (q.hear o now).tally = q.tally := by
  unfold hear
  split
  · rfl
  · split <;> rfl

theorem tally_setMaxConc (q : AccountQueue) (o : Outcome) : (q.setMaxConc c o).tally = q.tally := by
  unfold setMaxConc
  split
  · split <;> rfl
  · rfl

theorem turns_recvReport {rest : List DoneMsg} {o : Outcome} (h : Orderly q) (he : e.reads = false)
    (hq : q.done = .attempt job o :: rest) :
    Tally.Turns e q.tally (AccountQueue.recvReport c { q with done := rest } job o now).tally := by
  rw [AccountQueue.recvReport, tally_setMaxConc, tally_hear]
  have hcount := openIds_count_add_closed q job.id
  have honce := (h.books job.id).once
  unfold AccountQueue.endAttempt
  cases hr : o.retry with
  | some tr =>
    refine .of_eq ?_
    simp only [tally, closedIds, closedJobs, hq, List.filterMap_cons, DoneMsg.closedJob, hr,
      Option.isNone_some, Bool.false_eq_true, if_false]
    rfl
  | none =>
    have hcl : (q.closedJobs.map Job.id).count job.id =
        ({ q with done := rest }.closedJobs.map Job.id).count job.id + 1 := by
      simp only [closedJobs, hq, List.filterMap_cons, DoneMsg.closedJob, hr, Option.isNone_none,
        if_true, List.map_append, List.map_cons, List.count_append, List.count_cons_self]
      omega
    have hheld : job.id ∈ q.present := h.mem_present (by omega)
    have hgone : job.id ∉ { q with done := rest }.closedIds := by
      rw [if_pos hheld] at honce
      rw [mem_closedIds]
      omega
    have hins : q.closedIds = insert job.id { q with done := rest }.closedIds := by
      ext i
      simp only [closedIds, closedJobs, hq, List.filterMap_cons, DoneMsg.closedJob, hr,
        Option.isNone_none, if_true, List.map_append, List.map_cons, List.mem_toFinset,
        List.mem_append, List.mem_cons, Finset.mem_insert]
      tauto
    have heq : (AccountQueue.settle
        { q with done := rest, inFlight := q.inFlight - 1 } job.id).tally =
        q.tally.settle job.id := by
      simp only [tally, Tally.settle, Tally.mk.injEq]
      refine ⟨rfl, ?_, List.toFinset_cons, rfl, rfl, rfl, rfl, rfl⟩
      rw [hins, Finset.erase_insert hgone]
      rfl
    have hturn : Tally.Turn e q.tally (q.tally.settle job.id) :=
      .settle he hheld (mem_closedIds.mpr (by omega))
    rw [← heq] at hturn
    exact .single hturn

theorem turns_failQueued {a b : List Job} (h : Orderly { q with queue := a ++ job :: b })
    (he : e.reads = false) :
    Tally.Turns e ({ q with queue := a ++ job :: b } : AccountQueue).tally
      ({ q with queue := a ++ b }.failHeld job.id reason now).tally := by
  refine turns_failHeld h he ?_ rfl rfl rfl rfl rfl rfl rfl rfl
  simp only [openIds_count, List.map_append, List.map_cons, List.count_append,
    List.count_cons_self]
  omega

theorem turns_failWaiting {a b : List WaitingJob} {w : WaitingJob}
    (h : Orderly { q with waiting := a ++ w :: b }) (he : e.reads = false) :
    Tally.Turns e ({ q with waiting := a ++ w :: b } : AccountQueue).tally
      ({ q with waiting := a ++ b }.failHeld w.job.id reason now).tally := by
  refine turns_failHeld h he ?_ rfl rfl rfl rfl rfl rfl rfl rfl
  simp only [openIds_count, List.map_append, List.map_cons, List.count_append,
    List.count_cons_self]
  omega

theorem turns_send (hj : job ∈ q.stored) :
    Tally.Turns e q.tally ({ q with
      stored := q.stored.erase job
      cmds := q.cmds ++ [job] } : AccountQueue).tally := by
  refine .of_eq ?_
  have hperm : (q.stored.erase job ++ (q.cmds ++ [job])).Perm (q.stored ++ q.cmds) := by
    have hp := (List.perm_cons_erase hj).append_right q.cmds
    refine List.Perm.trans ?_ hp.symm
    rw [← List.append_assoc]
    exact List.perm_append_singleton job _
  simp only [tally, Multiset.coe_eq_coe.mpr hperm]
  rfl

theorem turns_report {a b : List Attempt} {o : Outcome} (hq : q.running = a ++ ⟨job, some o⟩ :: b) :
    Tally.Turns e q.tally ({ q with
      running := a ++ b
      done := q.done ++ [.attempt job o] } : AccountQueue).tally := by
  refine .of_eq ?_
  have hcl : ({ q with running := a ++ b, done := q.done ++ [.attempt job o] } :
      AccountQueue).closedIds = q.closedIds := by
    -- the same job moves from the attempts to the messages
    have hone : [(⟨job, some o⟩ : Attempt)].filterMap Attempt.closedJob =
        [DoneMsg.attempt job o].filterMap DoneMsg.closedJob := rfl
    refine List.toFinset_eq_of_perm _ _ (.map Job.id (List.perm_iff_count.mpr fun x => ?_))
    rw [closedJobs, closedJobs, hq.trans (List.append_cons a _ b)]
    simp only [List.filterMap_append, List.count_append, hone]
    omega
  simp only [tally, hcl]
  rfl

/-- The turns so far, while the loop goes through a queue or a page. -/
structure Turning (e : Event) (q u : AccountQueue) : Prop where
  orderly : Orderly u
  turns : Tally.Turns e q.tally u.tally

namespace Turning

variable {u v : AccountQueue}

theorem same (h : Turning e q u) (hm : v.memory = u.memory) (ht : v.tally = u.tally) :
    Turning e q v :=
  ⟨h.orderly.same hm, ht ▸ h.turns⟩

theorem failQueued {a b : List Job} (h : Turning e q { u with queue := a ++ job :: b })
    (he : e.reads = false) :
    Turning e q ({ u with queue := a ++ b }.failHeld job.id reason now) :=
  ⟨h.orderly.failQueued, h.turns.trans (turns_failQueued h.orderly he)⟩

theorem failWaiting {a b : List WaitingJob} {w : WaitingJob}
    (h : Turning e q { u with waiting := a ++ w :: b }) (he : e.reads = false) :
    Turning e q ({ u with waiting := a ++ b }.failHeld w.job.id reason now) :=
  ⟨h.orderly.failWaiting, h.turns.trans (turns_failWaiting h.orderly he)⟩

end Turning

theorem turns_refillPage {clock : Time} (h : Orderly q) :
    Tally.Turns (.refillPage now clock) q.tally (q.refillPage c now clock).tally := by
  refine (refillPage_induct (P := Turning _ q) (fun u v hu => hu.same rfl rfl) ?_ ?_
    ⟨h, .refl⟩).turns
  · intro u src rest r hs hmem huncov hnext hu
    refine ⟨hu.orderly.loadNext, hu.turns.tail ?_⟩
    rw [tally_loadNext hs]
    have hs' : u.tally.sources = src :: (rest ++ u.spillPending) := by
      simp [tally, sources, hs]
    exact .load hs' hmem huncov hnext
  · intro u src rest hs hall hu
    refine ⟨hu.orderly.finishSpill, hu.turns.tail ?_⟩
    rw [tally_finishSpill hs]
    have hs' : u.tally.sources = src :: (rest ++ u.spillPending) := by
      simp [tally, sources, hs]
    exact .finish hs' hall

theorem turns_sweepPage {w : Sweep} {clock : Time} (h : Orderly q) (hsw : SweepAhead q)
    (hw : q.sweep = some w) :
    Tally.Turns (.sweepPage clock) q.tally (q.sweepPage c w clock).tally := by
  refine (sweepPage_induct (P := Turning _ q) (fun u v hu => hu.same rfl rfl) ?_ ⟨h, .refl⟩).turns
  intro src₀ hs₀ u src r hs hk ha hr hkey hpend hcur hheld hexp hu
  have ht : (u.sweepJob w.index w.now r.job.asQueued).tally = _ := tally_sweepJob hs hheld hexp
  refine ⟨hu.orderly.sweepJob, hu.turns.tail ?_⟩
  rw [ht]
  have hi := (List.getElem?_eq_some_iff.mp hs).1
  have hs' : u.tally.sources[w.index]? = some src := by
    rw [← hs]
    exact List.getElem?_append_left hi
  refine .sweep hs' hr (hkey.trans hk.symm) hpend ?_ hheld
  -- The row is past the sweep's cursor, which is past the source's.
  rw [ha, PageCursor.not_covers_iff]
  exact lt_of_le_of_lt (hsw w hw src₀ hs₀) ((PageCursor.not_covers_iff _ _).mp hcur)

/-- Every inner step is a sequence of turns. -/
theorem step_turns (h : Orderly q) (hsw : SweepAhead q) (he : e.inner = true)
    (hstep : q.step c e = some t) : Tally.Turns e q.tally t.tally := by
  have hspec := step_spec hstep
  have hstart : Turning e q q := ⟨h, .refl⟩
  cases e <;> simp only [StepSpec] at hspec <;> simp only [Event.inner, Bool.false_eq_true] at he
  case send job =>
    obtain ⟨hj, rfl⟩ := hspec
    exact turns_send hj
  case throttle =>
    rcases hspec with rfl | rfl
    · refine .of_eq ?_
      simp only [tally, closedIds, closedJobs, List.filterMap_append, List.filterMap_cons,
        List.filterMap_nil, DoneMsg.closedJob, List.append_nil]
      rfl
    · exact .refl
  case execute i x =>
    obtain ⟨job, a, b, hq, hx, rfl⟩ := hspec
    refine turns_execute h hq fun hc => ?_
    have hs := h.unstopped
    simp [hx hc] at hs
  case report =>
    obtain ⟨job, o, a, b, hq, rfl⟩ := hspec
    exact turns_report hq
  case takeSpills =>
    obtain ⟨-, rfl⟩ := hspec
    refine .of_eq ?_
    simp only [AccountQueue.takeSpills, tally, sources, List.append_nil]
    rfl
  case refillPage now clock =>
    obtain ⟨-, -, rfl⟩ := hspec
    exact turns_refillPage h
  case refillFail =>
    subst hspec
    exact .refl
  case dropExpiredJobs | dropExpiredWaiting | failDeadTarget | retryDue =>
    exact (scan_induct (P := Turning _ q) (fun u d hu => hu.same rfl rfl)
      (fun u now hu => hu.same rfl rfl) (fun u a job b reason now hu => hu.failQueued rfl)
      (fun u a w b reason now hu => hu.failWaiting rfl)
      (fun u a w b hu => ⟨hu.orderly.retryMove, hu.turns⟩) rfl hstep hstart).turns
  case dispatch =>
    obtain ⟨job, rest, hq, -, -, rfl⟩ := hspec
    refine .of_eq ?_
    simp only [tally, closedIds, closedJobs, List.filterMap_append, List.filterMap_cons,
      List.filterMap_nil, Attempt.closedJob, Option.any_none, Bool.false_eq_true, if_false,
      List.append_nil]
    rfl
  case recvDone =>
    rcases hspec with ⟨rest, hq, rfl⟩ | ⟨job, o, rest, hq, rfl⟩
    · refine .of_eq ?_
      simp only [tally, closedIds, closedJobs, hq, List.filterMap_cons, DoneMsg.closedJob]
      rfl
    · exact turns_recvReport h rfl hq
  case sweepStart =>
    rcases hspec with ⟨-, rfl | rfl⟩ <;> exact .refl
  case sweepPage clock =>
    obtain ⟨w, hw, rfl⟩ := hspec
    exact turns_sweepPage h hsw hw
  case sweepFail =>
    obtain ⟨w, -, rfl⟩ := hspec
    exact .refl
  case idle =>
    obtain ⟨-, -, -, -, rfl | rfl⟩ := hspec <;> exact .refl
  case stopLoop | stopReport | stopHandoff =>
    rw [h.unstopped] at hspec
    exact absurd hspec.1 (by simp)

/-! ### The other steps -/

theorem tally_reserve (q : AccountQueue) (job : Job) :
    ({ q with reserved := q.reserved ++ [job], backlog := q.backlog + 1 } : AccountQueue).tally =
      q.tally.reserve job := by
  have hperm : ((q.reserved ++ [job] : List Job) : Multiset Job) = job ::ₘ q.reserved :=
    Multiset.coe_eq_coe.mpr (List.perm_append_singleton job q.reserved)
  simp only [tally, Tally.reserve, hperm]
  rfl

theorem tally_setKey (q : AccountQueue) (job : Job) (key : String) :
    ({ q with
      reserved := q.reserved.erase job
      stored := q.stored ++ [job]
      store := q.store.setQueueKey job.id key } : AccountQueue).tally = q.tally.setKey key job := by
  have hperm : ((q.stored ++ [job] ++ q.cmds : List Job) : Multiset Job) =
      job ::ₘ (q.stored ++ q.cmds : List Job) :=
    Multiset.coe_eq_coe.mpr ((List.perm_append_singleton job q.stored).append_right q.cmds)
  simp only [tally, Tally.setKey, hperm]
  rfl

theorem tally_attach (q : AccountQueue) (src : SpillSource) :
    ({ q with
      backlog := q.backlog + src.reserved
      spillPending := q.spillPending ++ [src] } : AccountQueue).tally = q.tally.attach src := by
  simp only [tally, Tally.attach, sources, ← List.append_assoc]
  rfl

theorem tally_drop {rest : List Job} (hq : q.cmds = job :: rest) :
    ({ q with cmds := rest } : AccountQueue).tally = q.tally.drop job := by
  have hperm : ((q.stored ++ rest : List Job) : Multiset Job) =
      ((q.stored ++ q.cmds : List Job) : Multiset Job).erase job := by
    rw [hq, Multiset.coe_eq_coe.mpr (List.perm_middle : (q.stored ++ job :: rest).Perm _)]
    exact (Multiset.erase_cons_head job _).symm
  simp only [tally, Tally.drop, hperm]
  rfl

theorem tally_accept {rest : List Job} (hq : q.cmds = job :: rest) :
    (hold { q with cmds := rest } job).tally = q.tally.accept job := by
  rw [tally_hold, tally_drop hq]
  rfl

/-- What the steps that are not made of turns do to the tally. -/
inductive Outer (c : QueueConfig) (q : AccountQueue) : Event → Tally → Prop
  | reserve {job : Job} : Outer c q (.reserve job) (q.tally.reserve job)
  | setKey {job : Job} (hj : job ∈ q.tally.reserved) :
    Outer c q (.setKey job) (q.tally.setKey c.storeKey job)
  | attach {key : String} {after : PageCursor} {remaining : Nat} {cutoff : Time} :
    Outer c q (.attachSpill key after remaining cutoff)
      (q.tally.attach { key, after, reserved := remaining, cutoff })
  | external {op : StoreOp} :
    Outer c q (.external op) (q.tally.external (op.apply c.env q.store))
  | accept {now clock : Time} {job : Job} {rest : List Job} (hq : q.cmds = job :: rest)
    (hacc : acceptHandoff c { q with cmds := rest } job now clock = true) :
    Outer c q (.recvCmd now clock) (q.tally.accept job)
  | drop {now clock : Time} {job : Job} {rest : List Job} (hq : q.cmds = job :: rest)
    (href : acceptHandoff c { q with cmds := rest } job now clock = false) :
    Outer c q (.recvCmd now clock) (q.tally.drop job)
  | panic {now : Time} : Outer c q (.panic now) (q.panic c now).tally
  | stop : Outer c q .stop q.tally

theorem outer_of_step (he : ¬ e.inner = true) (hstep : q.step c e = some t) :
    Outer c q e t.tally := by
  have hspec := step_spec hstep
  cases e <;> simp only [StepSpec] at hspec <;> simp only [Event.inner, not_true_eq_false] at he
  case reserve job =>
    subst hspec
    rw [tally_reserve]
    exact .reserve
  case setKey job =>
    obtain ⟨hj, rfl⟩ := hspec
    rw [tally_setKey]
    exact .setKey (Multiset.mem_coe.mpr hj)
  case attachSpill key after remaining cutoff =>
    subst hspec
    have ht := tally_attach q { key, after, reserved := remaining, cutoff }
    dsimp only at ht
    rw [ht]
    exact .attach
  case external op =>
    subst hspec
    exact .external
  case recvCmd now clock =>
    obtain ⟨job, rest, hq, ⟨hacc, rfl⟩ | ⟨href, rfl⟩⟩ := hspec
    · rw [tally_accept hq]
      exact .accept hq hacc
    · rw [tally_drop hq]
      exact .drop hq href
  case panic now =>
    subst hspec
    exact .panic
  case stop =>
    subst hspec
    exact .stop

/-! ### The sweep's cursor -/

theorem SweepAhead.same (h : SweepAhead q) (hw : t.sweep = q.sweep) (hs : t.spills = q.spills) :
    SweepAhead t := by
  intro w
  rw [hw, hs]
  exact h w

theorem sweepAhead_of_none (h : q.sweep = none) : SweepAhead q := by
  intro w hw
  rw [h] at hw
  cases hw

theorem sweepAhead_sweepAt (h : q.sweep = q.sweepAt now i) : SweepAhead q := by
  intro w hw src hs
  rw [h, sweepAt, Option.map_eq_some_iff] at hw
  obtain ⟨src', hs', rfl⟩ := hw
  rw [hs'] at hs
  cases hs
  exact le_rfl

theorem foldl_sweepJob_spills (w : Time) (page : List Job) (hs : q.spills[i]? = some src) :
    ∃ src', (page.foldl (sweepJob i w) q).spills[i]? = some src' ∧ src'.after = src.after := by
  induction page generalizing q src with
  | nil => exact ⟨src, hs, rfl⟩
  | cons job page ih =>
    obtain ⟨src', hs', -, ha'⟩ := sweepJob_spills w job hs
    obtain ⟨src'', hs'', ha''⟩ := ih hs'
    exact ⟨src'', hs'', ha''.trans ha'⟩

theorem sweepAhead_sweepPage {w : Sweep} {clock : Time} (h : SweepAhead q)
    (hw : q.sweep = some w) : SweepAhead (q.sweepPage c w clock) := by
  unfold sweepPage
  split
  · exact sweepAhead_of_none rfl
  next src hs =>
  dsimp only
  split
  next last hlast =>
    split
    · exact sweepAhead_sweepAt rfl
    · intro w' hw' src' hs'
      cases hw'
      obtain ⟨src'', hs'', ha''⟩ := foldl_sweepJob_spills w.now
        (q.store.queuedPage src.key w.cursor (unixMilli w.now - queuedTTL) c.pageSize clock) hs
      dsimp only at hs'
      rw [hs''] at hs'
      cases hs'
      obtain ⟨r, -, hcov, rfl⟩ := Store.mem_queuedPage (List.mem_of_getLast? hlast)
      rw [ha'']
      exact (h w hw src hs).trans ((PageCursor.not_covers_iff _ _).mp hcov).le
  · exact sweepAhead_sweepAt rfl

theorem loadNext_sweep (q : AccountQueue) (job : Job) : (q.loadNext job).sweep = q.sweep := by
  have hconsume : (q.consume 0 job).sweep = q.sweep := by
    unfold consume
    split <;> rfl
  unfold loadNext loadJob
  split
  · split
    · exact hconsume
    · rfl
  · unfold hold trackDeadline
    split <;> exact hconsume

theorem finishSpill_sweep (q : AccountQueue) : q.finishSpill.sweep = q.sweep := by
  unfold finishSpill
  split <;> rfl

theorem sweepAhead_step (h : SweepAhead q) (hstep : q.step c e = some t) : SweepAhead t := by
  have hspec := step_spec hstep
  cases e <;> simp only [StepSpec] at hspec
  case reserve | attachSpill | external | refillFail | stop =>
    subst hspec
    exact h
  case setKey | send | stopLoop | stopReport =>
    obtain ⟨-, rfl⟩ := hspec
    exact h
  case stopHandoff =>
    obtain ⟨-, -, rfl⟩ := hspec
    exact h
  case throttle => rcases hspec with rfl | rfl <;> exact h
  case execute i x =>
    obtain ⟨job, a, b, -, -, rfl⟩ := hspec
    cases (Aquifer.execute job x).1 <;> exact h
  case report | dispatch =>
    obtain ⟨job, o, a, b, -, rfl⟩ := hspec
    exact h
  case takeSpills =>
    obtain ⟨hnone, rfl⟩ := hspec
    exact sweepAhead_of_none hnone
  case refillPage =>
    obtain ⟨hnone, -, rfl⟩ := hspec
    refine sweepAhead_of_none (refillPage_induct (P := fun u => u.sweep = none)
      (fun u v hu => hu) ?_ ?_ hnone)
    · exact fun u src rest r _ _ _ _ hu => (loadNext_sweep u _).trans hu
    · exact fun u src rest _ _ hu => (finishSpill_sweep u).trans hu
  case dropExpiredJobs | dropExpiredWaiting | failDeadTarget | retryDue =>
    exact scan_induct (P := SweepAhead) (fun u d hu => hu) (fun u now hu => hu)
      (fun u a job b reason now hu => hu) (fun u a w b reason now hu => hu)
      (fun u a w b hu => hu) rfl hstep h
  case recvCmd =>
    obtain ⟨job, rest, -, ⟨-, rfl⟩ | ⟨-, rfl⟩⟩ := hspec
    · unfold hold trackDeadline
      split <;> exact h
    · exact h
  case recvDone =>
    rcases hspec with ⟨rest, hq, rfl⟩ | ⟨job, o, rest, hq, rfl⟩
    · exact h
    · refine h.same ?_ ?_ <;> unfold recvReport setMaxConc hear endAttempt <;>
        (repeat' split) <;> rfl
  case sweepStart =>
    rcases hspec with ⟨hnone, rfl | rfl⟩
    · exact h
    · exact sweepAhead_sweepAt rfl
  case sweepPage =>
    obtain ⟨w, hw, rfl⟩ := hspec
    exact sweepAhead_sweepPage h hw
  case sweepFail =>
    obtain ⟨w, -, rfl⟩ := hspec
    exact sweepAhead_sweepAt rfl
  case idle =>
    obtain ⟨-, -, -, -, rfl | rfl⟩ := hspec <;> exact h
  case panic =>
    subst hspec
    unfold AccountQueue.panic
    split
    · exact h
    · exact sweepAhead_of_none rfl

end AccountQueue

end Aquifer
