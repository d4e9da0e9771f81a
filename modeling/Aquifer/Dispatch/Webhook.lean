import Aquifer.Dispatch.AccountQueue

/-! Completion webhooks. A finished job's terminal status, the wait for its stream and the row of
its webhook delivery are separate steps; the process may crash, or the registry close, between any
two. -/
namespace Aquifer

/-- The job has a webhook to send when it is finished. -/
def Job.owesWebhook (j : Job) : Bool := j.webhookURL ≠ "" && !j.isWebhookDelivery

/-- The job `EnqueueWebhook` stores, under the key `webhook:<job id>`. -/
def webhookDelivery (env : Env) (job : Job) (payload id : String) (now : Time) : Job :=
  { Job.new env
      { userID := job.userID
        idempotentKey := "webhook:" ++ job.id
        url := job.webhookURL
        method := "POST"
        headers := [("Content-Type", "application/json")]
        body := payload
        maxRetries := some job.webhookRetryLimit } id now with
    kind := .webhookDelivery }

def Row.Delivers (r : Row) (job : Job) : Prop :=
  r.job.kind = .webhookDelivery ∧ r.job.userID = job.userID ∧
    r.job.idempotentKey = "webhook:" ++ job.id

instance (r : Row) (job : Job) : Decidable (r.Delivers job) :=
  inferInstanceAs (Decidable (_ ∧ _ ∧ _))

/-- Where a job is finished: in `execute` and its `failJob`, in `failQueuedJob`, or in the handler
of a panic in `execute`. Only the first waits for a stream. -/
inductive FinishPath
  | attempt
  | queued
  | panicked
deriving DecidableEq, Repr

/-- How far a finish has come: the terminal status is written; the final event is out; the webhook
is being stored. -/
inductive FinishStage
  | written
  | published (streamed : Bool)
  | enqueuing
deriving DecidableEq, Repr

structure Finish where
  job : Job
  path : FinishPath
  stage : FinishStage
deriving DecidableEq, Repr

/-- A process and its store. `confirmed` are the jobs for which `PublishTerminal` returned true and
`byQueue` those the queue path finished; nothing reads these two. -/
structure Delivery where
  store : Store
  stopping : Bool
  finishing : List Finish
  confirmed : List String
  byQueue : List String

namespace Delivery

inductive Event
  | finish (id : String) (path : FinishPath) (status : Status) (now : Time)
  | publish (f : Finish) (streamed : Bool)
  | recover (f : Finish) (now : Time)
  | enqueueWebhook (f : Finish)
  | insert (f : Finish) (payload id : String) (now : Time)
  | recordRetry (id : String) (attempts : Int)
  | external (op : StoreOp)
  | close
  | crash
deriving DecidableEq, Repr

def new (store : Store) : Delivery := ⟨store, false, [], [], []⟩

def drop (s : Delivery) (f : Finish) : Delivery := { s with finishing := s.finishing.erase f }

def move (s : Delivery) (f : Finish) (path : FinishPath) (stage : FinishStage) : Delivery :=
  { s with finishing := { f with path, stage } :: s.finishing.erase f }

/-- `NewID` draws an id that no row and no finished job has. -/
def fresh (s : Delivery) (id : String) : Bool := (s.store.find id).isNone && id ∉ s.byQueue

/-- The first line of `EnqueueWebhook`, which its callers reach only with a webhook to send and no
stream that confirmed. -/
def enqueueWebhook (s : Delivery) (f : Finish) (streamed : Bool) : Delivery :=
  if f.job.owesWebhook && !streamed then
    if s.stopping then s.drop f else s.move f f.path .enqueuing
  else s.drop f

def step (env : Env) (s : Delivery) : Event → Option Delivery
  | .finish id path status now =>
    (s.store.find id).bind fun r =>
      if status = .failed ∨ status = .completed ∧ path = .attempt then
        some { s with
          store := s.store.updateStatus id status now
          finishing := ⟨r.job, path, .written⟩ :: s.finishing
          byQueue := id :: s.byQueue }
      else none
  | .publish f streamed =>
    if f ∈ s.finishing ∧ f.stage = .written ∧ (streamed = true → f.path = .attempt) then
      some { s.move f f.path (.published streamed) with
        confirmed := if streamed then f.job.id :: s.confirmed else s.confirmed }
    else none
  -- the handler writes the failure once more and goes straight to the webhook
  | .recover f now =>
    if f ∈ s.finishing ∧ f.path = .attempt then
      some { s.move f .panicked (.published false) with
        store := s.store.updateStatus f.job.id .failed now }
    else none
  | .enqueueWebhook f =>
    match f.stage with
    | .published streamed =>
      if f ∈ s.finishing then some (s.enqueueWebhook f streamed) else none
    | _ => none
  | .insert f payload id now =>
    if f ∈ s.finishing ∧ f.stage = .enqueuing ∧ s.fresh id = true then
      some { s.drop f with
        store := (s.store.checkOrInsert env (webhookDelivery env f.job payload id now) now).1 }
    else none
  | .recordRetry id attempts => some { s with store := s.store.recordRetry id attempts }
  | .external op =>
    if op.insertedID.all s.fresh then
      some { s with store := op.apply env s.store }
    else none
  | .close => some { s with stopping := true }
  | .crash => some { s with stopping := false, finishing := [] }

end Delivery

/-- What a job keeps from its creation on, as far as webhooks go. -/
def Job.mark (j : Job) : String × String × String × String × Kind :=
  (j.id, j.userID, j.webhookURL, j.idempotentKey, j.kind)

section Marks

variable {i j : Job} {r r' : Row}

theorem Job.id_of_mark (h : i.mark = j.mark) : i.id = j.id := congrArg Prod.fst h

theorem Job.owesWebhook_of_mark (h : i.mark = j.mark) : i.owesWebhook = j.owesWebhook := by
  simp only [mark, Prod.mk.injEq] at h
  simp [owesWebhook, isWebhookDelivery, h]

theorem Row.Delivers.of_mark (h : r.Delivers i) (hm : i.mark = j.mark) : r.Delivers j := by
  simp only [Job.mark, Prod.mk.injEq] at hm
  exact ⟨h.1, h.2.1.trans hm.2.1, h.2.2.trans (by rw [hm.1])⟩

theorem Row.Delivers.of_row (h : r.Delivers j) (hm : r'.job.mark = r.job.mark) : r'.Delivers j := by
  simp only [Job.mark, Prod.mk.injEq] at hm
  exact ⟨hm.2.2.2.2.trans h.1, hm.2.1.trans h.2.1, hm.2.2.2.1.trans h.2.2⟩

end Marks

/-- Every row is one that was there before, and none is missing. -/
structure Rewritten (st st' : Store) : Prop where
  back : ∀ r' ∈ st'.rows, ∃ r ∈ st.rows, r.job.mark = r'.job.mark
  forth : ∀ r ∈ st.rows, ∃ r' ∈ st'.rows, r'.job.mark = r.job.mark

theorem rewritten_update {st : Store} {id : String} {f : Row → Row}
    (hf : ∀ r : Row, (f r).id = r.id ∧ (f r).hash = r.hash)
    (hmark : ∀ r, (f r).job.mark = r.job.mark) : Rewritten st (st.update id f hf) := by
  refine ⟨fun r' hr' => ?_, fun r hr => ?_⟩
  · rcases Table.mem_update.mp hr' with ⟨hr, -⟩ | ⟨r, hr, -, rfl⟩
    · exact ⟨r', hr, rfl⟩
    · exact ⟨r, hr, (hmark r).symm⟩
  · by_cases hid : r.id = id
    · exact ⟨_, Table.mem_update.mpr (.inr ⟨r, hr, hid, rfl⟩), hmark r⟩
    · exact ⟨r, Table.mem_update.mpr (.inl ⟨hr, hid⟩), rfl⟩

theorem rewritten_updateStatus (st : Store) (id : String) (status : Status) (now : Time) :
    Rewritten st (st.updateStatus id status now) :=
  rewritten_update _ fun _ => rfl

theorem rewritten_recordRetry (st : Store) (id : String) (attempts : Int) :
    Rewritten st (st.recordRetry id attempts) :=
  rewritten_update _ fun _ => rfl

/-- The invariant: what is known of the finishes under way, and that each job the queue path
finished has its webhook's row, a confirmed stream, or its finish under way. -/
structure Tidy (st : Store) (finishing : List Finish) (confirmed byQueue : List String) :
    Prop where
  same : ∀ f ∈ finishing, ∀ r ∈ st.rows, r.id = f.job.id → r.job.mark = f.job.mark
  entered : ∀ f ∈ finishing, f.job.id ∈ byQueue
  streamed : ∀ f ∈ finishing, f.stage = .published true → f.job.id ∈ confirmed
  kept : ∀ r ∈ st.rows, r.id ∈ byQueue → r.job.owesWebhook = true →
    (∃ r' ∈ st.rows, r'.Delivers r.job) ∨ r.id ∈ confirmed ∨ ∃ f ∈ finishing, f.job.id = r.id

namespace Tidy

variable {st st' : Store} {fin : List Finish} {confirmed byQueue : List String} {f f' : Finish}
  {r : Row} {id : String}

/-- A change of the store that adds no row of a finished job and loses no delivery. -/
theorem store (h : Tidy st fin confirmed byQueue)
    (hback : ∀ r' ∈ st'.rows, r'.id ∈ byQueue → ∃ r ∈ st.rows, r.job.mark = r'.job.mark)
    (hdel : ∀ r ∈ st'.rows, (∃ r' ∈ st.rows, r'.Delivers r.job) →
      ∃ r' ∈ st'.rows, r'.Delivers r.job) : Tidy st' fin confirmed byQueue := by
  refine ⟨fun f hf r' hr' hid => ?_, h.entered, h.streamed, fun r' hr' hq howes => ?_⟩
  · obtain ⟨r, hr, hm⟩ := hback r' hr' (hid ▸ h.entered f hf)
    exact hm.symm.trans (h.same f hf r hr ((Job.id_of_mark hm).trans hid))
  · obtain ⟨r, hr, hm⟩ := hback r' hr' hq
    have hid : r.id = r'.id := Job.id_of_mark hm
    rcases h.kept r hr (hid ▸ hq) (Job.owesWebhook_of_mark hm ▸ howes) with ⟨d, hd, hdr⟩ | hc | hf
    · exact .inl (hdel r' hr' ⟨d, hd, hdr.of_mark hm⟩)
    · exact .inr (.inl (hid ▸ hc))
    · exact .inr (.inr (hid ▸ hf))

theorem rewrite (h : Tidy st fin confirmed byQueue) (hst : Rewritten st st') :
    Tidy st' fin confirmed byQueue := by
  refine h.store (fun r' hr' _ => hst.back r' hr') fun r _ ⟨d, hd, hdr⟩ => ?_
  obtain ⟨d', hd', hm⟩ := hst.forth d hd
  exact ⟨d', hd', hdr.of_row hm⟩

theorem finish (h : Tidy st fin confirmed byQueue) (hr : st.find id = some r) (path : FinishPath) :
    Tidy st (⟨r.job, path, .written⟩ :: fin) confirmed (id :: byQueue) := by
  obtain ⟨hmem, rfl⟩ := Table.find_eq_some_iff.mp hr
  refine ⟨?_, ?_, ?_, fun r' hr' hq howes => ?_⟩
  · rintro f hf r' hr' hid
    rcases List.mem_cons.mp hf with rfl | hf
    · rw [Table.eq_of_id hr' hmem hid]
    · exact h.same f hf r' hr' hid
  · rintro f hf
    rcases List.mem_cons.mp hf with rfl | hf
    · exact List.mem_cons_self
    · exact List.mem_cons_of_mem _ (h.entered f hf)
  · rintro f hf hs
    rcases List.mem_cons.mp hf with rfl | hf
    · cases hs
    · exact h.streamed f hf hs
  · rcases List.mem_cons.mp hq with hid | hq
    · exact .inr (.inr ⟨_, List.mem_cons_self, hid.symm⟩)
    · rcases h.kept r' hr' hq howes with hd | hc | ⟨f, hf, hid⟩
      · exact .inl hd
      · exact .inr (.inl hc)
      · exact .inr (.inr ⟨f, List.mem_cons_of_mem _ hf, hid⟩)

theorem replace {confirmed' : List String} (h : Tidy st fin confirmed byQueue) (hf : f ∈ fin)
    (hjob : f'.job = f.job) (hsub : ∀ id ∈ confirmed, id ∈ confirmed')
    (hs : f'.stage = .published true → f.job.id ∈ confirmed') :
    Tidy st (f' :: fin.erase f) confirmed' byQueue := by
  refine ⟨?_, ?_, ?_, fun r hr hq howes => ?_⟩
  · rintro g hg
    rcases List.mem_cons.mp hg with rfl | hg
    · exact hjob ▸ h.same f hf
    · exact h.same g (List.mem_of_mem_erase hg)
  · rintro g hg
    rcases List.mem_cons.mp hg with rfl | hg
    · exact hjob ▸ h.entered f hf
    · exact h.entered g (List.mem_of_mem_erase hg)
  · rintro g hg hst
    rcases List.mem_cons.mp hg with rfl | hg
    · exact hjob ▸ hs hst
    · exact hsub _ (h.streamed g (List.mem_of_mem_erase hg) hst)
  · rcases h.kept r hr hq howes with hd | hc | ⟨g, hg, hid⟩
    · exact .inl hd
    · exact .inr (.inl (hsub _ hc))
    · refine .inr (.inr ?_)
      by_cases hgf : g = f
      · exact ⟨f', List.mem_cons_self, by rw [hjob, ← hgf, hid]⟩
      · exact ⟨g, List.mem_cons_of_mem _ ((List.mem_erase_of_ne hgf).mpr hg), hid⟩

/-- Finishes go away that have nothing left to do. -/
theorem leave {fin' : List Finish} (h : Tidy st fin confirmed byQueue)
    (hsub : ∀ f ∈ fin', f ∈ fin)
    (hgone : ∀ f ∈ fin, f ∉ fin' → f.job.owesWebhook = true →
      f.job.id ∈ confirmed ∨ ∃ r' ∈ st.rows, r'.Delivers f.job) :
    Tidy st fin' confirmed byQueue := by
  refine ⟨fun f hf => h.same f (hsub f hf), fun f hf => h.entered f (hsub f hf),
    fun f hf => h.streamed f (hsub f hf), fun r hr hq howes => ?_⟩
  rcases h.kept r hr hq howes with hd | hc | ⟨f, hf, hid⟩
  · exact .inl hd
  · exact .inr (.inl hc)
  · by_cases hf' : f ∈ fin'
    · exact .inr (.inr ⟨f, hf', hid⟩)
    have hm := h.same f hf r hr hid.symm
    rcases hgone f hf hf' (Job.owesWebhook_of_mark hm ▸ howes) with hc | ⟨d, hd, hdr⟩
    · exact .inr (.inl (hid ▸ hc))
    · exact .inl ⟨d, hd, hdr.of_mark hm.symm⟩

end Tidy

namespace Delivery

variable {env : Env} {s t : Delivery} {e : Event} {f : Finish}

def IsTidy (s : Delivery) : Prop := Tidy s.store s.finishing s.confirmed s.byQueue

theorem tidy_new (store : Store) : IsTidy (new store) := by
  constructor <;> simp [new]

/-- Neither a crash nor a `Close` finds a finish between its terminal write and its webhook's row,
the webhook's key belongs to nothing else, and no delivery is deleted before its job. -/
def attended (env : Env) (s : Delivery) : Event → Bool
  | .enqueueWebhook f => decide (s.stopping = true → f.job.owesWebhook = true →
      f.stage = .published true)
  | .insert f payload id now => decide (∀ r ∈ s.store.rows,
      r.hash = (webhookDelivery env f.job payload id now).idempotencyHash env → r.Delivers f.job)
  | .external op => decide (∀ r ∈ (op.apply env s.store).rows,
      (∃ r' ∈ s.store.rows, r'.Delivers r.job) →
        ∃ r' ∈ (op.apply env s.store).rows, r'.Delivers r.job)
  | .crash => decide (∀ f ∈ s.finishing, f.job.owesWebhook = true → f.stage = .published true)
  | _ => true

theorem fresh_iff {id : String} : s.fresh id = true ↔ s.store.find id = none ∧ id ∉ s.byQueue := by
  simp [fresh]

/-- Everything else that happens to the store adds no row of a finished job. -/
theorem back_external {op : StoreOp} (hf : op.insertedID.all s.fresh = true) :
    ∀ r' ∈ (op.apply env s.store).rows, r'.id ∈ s.byQueue →
      ∃ r ∈ s.store.rows, r.job.mark = r'.job.mark := by
  intro r' hr' hq
  cases op with
  | checkOrInsert job now =>
    have hnew : job.id ∉ s.byQueue := (fresh_iff.mp hf).2
    rcases Store.mem_checkOrInsert hr' with hr' | rfl
    · exact ⟨r', hr', rfl⟩
    · exact absurd hq hnew
  | deleteJob id => exact ⟨r', (Table.mem_erase.mp hr').1, rfl⟩
  | deleteExpired now => exact ⟨r', List.mem_of_mem_filter hr', rfl⟩
  | setQueueKey id key =>
    rcases Store.mem_setQueueKey.mp hr' with ⟨hr, -⟩ | ⟨r, hr, -, rfl⟩
    · exact ⟨r', hr, rfl⟩
    · exact ⟨r, hr, rfl⟩
  | updateStatus id status now => exact (rewritten_updateStatus _ _ _ _).back r' hr'

theorem tidy_insert {payload id : String} {now : Time} (h : IsTidy s) (hf : f ∈ s.finishing)
    (hfresh : s.fresh id = true)
    (hkey : ∀ r ∈ s.store.rows,
      r.hash = (webhookDelivery env f.job payload id now).idempotencyHash env → r.Delivers f.job) :
    Tidy (s.store.checkOrInsert env (webhookDelivery env f.job payload id now) now).1
      (s.finishing.erase f) s.confirmed s.byQueue := by
  obtain ⟨hid, hnew⟩ := fresh_iff.mp hfresh
  have hput : Tidy (s.store.checkOrInsert env (webhookDelivery env f.job payload id now) now).1
      s.finishing s.confirmed s.byQueue := by
    refine h.store (fun r' hr' hq => ?_) fun r _ ⟨d, hd, hdr⟩ => ?_
    · rcases Store.mem_checkOrInsert hr' with hr' | rfl
      · exact ⟨r', hr', rfl⟩
      · exact absurd hq hnew
    · exact ⟨d, Store.mem_checkOrInsert_of_mem hd, hdr⟩
  refine hput.leave (fun g hg => List.mem_of_mem_erase hg) fun g hg hgone _ => .inr ?_
  have hgf : g = f := by
    by_contra hne
    exact hgone ((List.mem_erase_of_ne hne).mpr hg)
  subst hgf
  unfold Store.checkOrInsert
  split
  · next r hr =>
    obtain ⟨hmem, hhash⟩ := Table.findAlt_eq_some_iff.mp hr
    exact ⟨r, hmem, hkey r hmem hhash⟩
  · next hr =>
    refine ⟨_, Table.mem_insert_self hid hr, rfl, rfl, rfl⟩

/-- One finish goes away: it had no webhook to send, or its stream confirmed. -/
theorem tidy_drop (h : IsTidy s)
    (hgone : f.job.owesWebhook = true → f.job.id ∈ s.confirmed) : IsTidy (s.drop f) := by
  refine Tidy.leave h (fun g hg => List.mem_of_mem_erase hg) fun g hg hgone' howes => .inl ?_
  by_cases hgf : g = f
  · exact hgf ▸ hgone (hgf ▸ howes)
  · exact absurd ((List.mem_erase_of_ne hgf).mpr hg) hgone'

theorem tidy_enqueueWebhook {streamed : Bool} (h : IsTidy s) (hf : f ∈ s.finishing)
    (hst : f.stage = .published streamed)
    (hok : s.stopping = true → f.job.owesWebhook = true → f.stage = .published true) :
    IsTidy (s.enqueueWebhook f streamed) := by
  unfold enqueueWebhook
  split
  · next hsend =>
    obtain ⟨howes, hnot⟩ := Bool.and_eq_true_iff.mp hsend
    split
    · next hstop => exact tidy_drop h fun _ => h.streamed f hf (hok hstop howes)
    · exact Tidy.replace h hf rfl (fun _ => id) (by simp)
  · next hsend =>
    refine tidy_drop h fun howes => h.streamed f hf ?_
    rw [hst]
    simpa [howes] using hsend

theorem tidy_step (h : IsTidy s) (hok : s.attended env e = true) (hstep : s.step env e = some t) :
    IsTidy t := by
  cases e with
  | finish id path status now =>
    obtain ⟨r, hr, hstep⟩ := Option.bind_eq_some_iff.mp hstep
    split at hstep
    · cases hstep
      exact (Tidy.finish h hr path).rewrite (rewritten_updateStatus _ _ _ _)
    · cases hstep
  | publish f streamed =>
    simp only [step] at hstep
    split at hstep
    · next hg =>
      cases hstep
      refine Tidy.replace h hg.1 rfl (fun id hid => ?_) fun hs => ?_
      · dsimp only
        split
        · exact List.mem_cons_of_mem _ hid
        · exact hid
      · cases hs
        exact List.mem_cons_self
    · cases hstep
  | recover f now =>
    simp only [step] at hstep
    split at hstep
    · next hg =>
      cases hstep
      have hmove : IsTidy (s.move f .panicked (.published false)) :=
        Tidy.replace h hg.1 rfl (fun _ => id) (by simp)
      exact Tidy.rewrite hmove (rewritten_updateStatus _ _ _ _)
    · cases hstep
  | enqueueWebhook f =>
    simp only [step] at hstep
    split at hstep
    · next streamed hst =>
      split at hstep
      · next hf =>
        cases hstep
        exact tidy_enqueueWebhook h hf hst (of_decide_eq_true hok)
      · cases hstep
    · cases hstep
  | insert f payload id now =>
    simp only [step] at hstep
    split at hstep
    · next hg =>
      cases hstep
      exact tidy_insert h hg.1 hg.2.2 (of_decide_eq_true hok)
    · cases hstep
  | recordRetry id attempts =>
    cases hstep
    exact Tidy.rewrite h (rewritten_recordRetry _ _ _)
  | external op =>
    simp only [step] at hstep
    split at hstep
    · next hf =>
      cases hstep
      exact Tidy.store h (back_external hf) (of_decide_eq_true hok)
    · cases hstep
  | close =>
    cases hstep
    exact h
  | crash =>
    cases hstep
    refine Tidy.leave h (by simp) fun f hf _ howes => .inl ?_
    exact h.streamed f hf (of_decide_eq_true hok f hf howes)

/-- A finished job's webhook is never lost: a job with a webhook that the queue path finished has
its delivery stored, its final event confirmed by a stream, or its finish still running. -/
theorem webhooks_kept (env : Env) (store : Store) (es : List Event) (s : Delivery)
    (hrun : Trace.exec (step env) (new store) es = some s)
    (hok : Trace.Along (step env) (fun s e => s.attended env e = true) (new store) es) :
    ∀ r ∈ s.store.rows, r.id ∈ s.byQueue → r.pending = false → r.job.webhookURL ≠ "" →
      r.job.isWebhookDelivery = false →
      (∃ r' ∈ s.store.rows, r'.Delivers r.job) ∨ r.id ∈ s.confirmed ∨
        ∃ f ∈ s.finishing, f.job.id = r.id := by
  have h : IsTidy s := Trace.exec_invariant tidy_step (tidy_new store) hok hrun
  intro r hr hq _ hurl hkind
  exact h.kept r hr hq (by simp [Job.owesWebhook, hurl, hkind])

/-- A job with a webhook, stored pending. -/
def hookJob : Job where
  id := "1"
  userID := "u"
  webhookURL := "http://w/"

def hookEnv : Env where
  hashKey := fun key => key

def hookStore : Store := (Store.checkOrInsert hookEnv Table.empty hookJob 0).1

/-- The process dies right after the terminal write. -/
def crashed : List Event := [.finish "1" .attempt .completed 0, .crash]

/-- The registry closes while the final event is out. -/
def closed : List Event :=
  [.finish "1" .attempt .completed 0, .publish ⟨hookJob, .attempt, .written⟩ false, .close,
    .enqueueWebhook ⟨hookJob, .attempt, .published false⟩]

/-- The job of the run is finished, no other path took its webhook over and none was stored. -/
def Unannounced (s : Delivery) : Prop :=
  s.store.rows.map (fun r => (r.id, r.job.status, r.job.webhookURL, r.job.kind)) =
    [("1", .completed, "http://w/", .user)] ∧ s.byQueue = ["1"] ∧ s.confirmed = [] ∧ s.finishing =
    []

instance (s : Delivery) : Decidable s.Unannounced := inferInstanceAs (Decidable (_ ∧ _))

/-- The job stays completed, with no delivery, no confirmed stream and nothing running. -/
theorem webhook_lost :
    (∃ s, Trace.exec (step hookEnv) (new hookStore) crashed = some s ∧ s.Unannounced) ∧
      ∃ s, Trace.exec (step hookEnv) (new hookStore) closed = some s ∧ s.Unannounced := by
  have hrun : ∀ es ∈ [crashed, closed],
      (Trace.exec (step hookEnv) (new hookStore) es).isSome = true := by decide +kernel
  have hend : ∀ es ∈ [crashed, closed], ∀ s ∈ Trace.exec (step hookEnv) (new hookStore) es,
      s.Unannounced := by decide +kernel
  have hlost : ∀ es ∈ [crashed, closed],
      ∃ s, Trace.exec (step hookEnv) (new hookStore) es = some s ∧ s.Unannounced := by
    intro es hes
    obtain ⟨s, hs⟩ := Option.isSome_iff_exists.mp (hrun es hes)
    exact ⟨s, hs, hend es hes s hs⟩
  exact ⟨hlost crashed (by simp), hlost closed (by simp)⟩

/-- The same finish, with the crash after its webhook is stored. -/
def stored : List Event :=
  [.finish "1" .attempt .completed 0, .publish ⟨hookJob, .attempt, .written⟩ false,
    .enqueueWebhook ⟨hookJob, .attempt, .published false⟩,
    .insert ⟨hookJob, .attempt, .enqueuing⟩ "" "2" 0, .crash]

theorem stored_kept : ∃ s, Trace.exec (step hookEnv) (new hookStore) stored = some s ∧
    s.finishing = [] ∧ s.confirmed = [] ∧ ∀ r ∈ s.store.rows, r.id = "1" →
      ∃ r' ∈ s.store.rows, r'.Delivers r.job := by
  obtain ⟨s, hs, hfin, hconf, hrow⟩ : ∃ s,
      Trace.exec (step hookEnv) (new hookStore) stored = some s ∧ s.finishing = [] ∧
      s.confirmed = [] ∧ ∀ r ∈ s.store.rows, r.id = "1" → r.id ∈ s.byQueue ∧ r.pending = false ∧
        r.job.webhookURL ≠ "" ∧ r.job.isWebhookDelivery = false := by decide +kernel
  refine ⟨s, hs, hfin, hconf, fun r hr hid => ?_⟩
  obtain ⟨hq, hp, hurl, hkind⟩ := hrow r hr hid
  have hkept := webhooks_kept hookEnv hookStore stored s hs (by decide +kernel) r hr
    hq hp hurl hkind
  simpa [hfin, hconf] using hkept

end Delivery

end Aquifer
