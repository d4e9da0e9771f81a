import Aquifer.Dispatch.AccountQueue

/-! Induction rules for the loop's scans: what each single job's turn keeps, the scan keeps. -/
namespace Aquifer.AccountQueue

variable {c : QueueConfig} {P : AccountQueue → Prop} {q t : AccountQueue} {e : Event}
  {now clock : Time} {src : SpillSource} {i : Nat}

theorem trackDeadline_eq (q : AccountQueue) (job : Job) :
    ∃ d, q.trackDeadline job = { q with nextDeadline := d } := by
  unfold trackDeadline
  split
  · exact ⟨_, rfl⟩
  · exact ⟨q.nextDeadline, rfl⟩

/-- A scan of the queue that keeps a job or lets `f` deal with it. -/
theorem foldl_queue_induct {f : AccountQueue → Job → AccountQueue}
    (hf : ∀ (q : AccountQueue) (a : List Job) job b, P { q with queue := a ++ job :: b } →
      q.queue = a → P { f q job with queue := (f q job).queue ++ b })
    {jobs : List Job} (h : P { q with queue := q.queue ++ jobs }) : P (jobs.foldl f q) := by
  induction jobs generalizing q with
  | nil => simpa using h
  | cons job jobs ih =>
    rw [List.foldl_cons]
    exact ih (hf q q.queue job jobs h rfl)

theorem foldl_waiting_induct {f : AccountQueue → WaitingJob → AccountQueue}
    (hf : ∀ (q : AccountQueue) (a : List WaitingJob) w b, P { q with waiting := a ++ w :: b } →
      q.waiting = a → P { f q w with waiting := (f q w).waiting ++ b })
    {ws : List WaitingJob} (h : P { q with waiting := q.waiting ++ ws }) : P (ws.foldl f q) := by
  induction ws generalizing q with
  | nil => simpa using h
  | cons w ws ih =>
    rw [List.foldl_cons]
    exact ih (hf q q.waiting w ws h rfl)

/-! ### Page loads -/

def setAfter (q : AccountQueue) (cursor : PageCursor) : AccountQueue :=
  { q with spills := q.spills.modify 0 fun src => { src with after := cursor } }

theorem countsAt_setAfter (q : AccountQueue) (cursor : PageCursor) (job : Job) :
    (q.setAfter cursor).countsAt 0 job = q.countsAt 0 job := by
  cases hs : q.spills <;> simp [countsAt, setAfter, hs, SpillSource.counts]

theorem setAfter_setAfter (q : AccountQueue) (a b : PageCursor) :
    (q.setAfter a).setAfter b = q.setAfter b := by
  cases hs : q.spills <;> simp [setAfter, hs]

theorem consume_setAfter (q : AccountQueue) (cursor : PageCursor) (job : Job) :
    (q.setAfter cursor).consume 0 job = (q.consume 0 job).setAfter cursor := by
  unfold consume
  rw [countsAt_setAfter]
  split
  · cases hs : q.spills <;> simp [setAfter, hs]
  · rfl

theorem hold_setAfter (q : AccountQueue) (cursor : PageCursor) (job : Job) :
    (q.setAfter cursor).hold job = (q.hold job).setAfter cursor := by
  unfold hold trackDeadline
  by_cases h : 0 < job.queueDeadline ∧ (q.nextDeadline = 0 ∨ job.queueDeadline < q.nextDeadline)
  · rw [if_pos (by simpa [setAfter] using h), if_pos (by simpa using h)]
    rfl
  · rw [if_neg (by simpa [setAfter] using h), if_neg (by simpa using h)]
    rfl

/-- A job's turn does not look at the cursor, so the cursor may as well move with each job. -/
theorem loadJob_setAfter (q : AccountQueue) (cursor : PageCursor) (job : Job) :
    (q.setAfter cursor).loadJob job = (q.loadJob job).setAfter cursor := by
  have hp : (q.setAfter cursor).present = q.present := rfl
  unfold loadJob
  rw [hp, countsAt_setAfter, consume_setAfter, hold_setAfter]
  split
  · split <;> rfl
  · rfl

theorem foldl_loadJob_setAfter (q : AccountQueue) (cursor : PageCursor) (page : List Job) :
    page.foldl loadJob (q.setAfter cursor) = (page.foldl loadJob q).setAfter cursor := by
  induction page generalizing q with
  | nil => rfl
  | cons job page ih => rw [List.foldl_cons, loadJob_setAfter, ih, List.foldl_cons]

/-- One job's turn, with the cursor moved to it. -/
def loadNext (q : AccountQueue) (job : Job) : AccountQueue :=
  (q.loadJob job).setAfter (cursorAt job)

theorem foldl_loadJob_eq {page : List Job} {last : Job} (hlast : page.getLast? = some last) :
    (page.foldl loadJob q).setAfter (cursorAt last) = page.foldl loadNext q := by
  induction page generalizing q with
  | nil => simp at hlast
  | cons job page ih =>
    rw [List.foldl_cons, List.foldl_cons]
    cases page with
    | nil =>
      cases Option.some.inj hlast
      rfl
    | cons next page =>
      rw [List.getLast?_cons_cons] at hlast
      rw [← ih hlast, loadNext, foldl_loadJob_setAfter, setAfter_setAfter]

theorem hold_eq (q : AccountQueue) (job : Job) : ∃ d, q.hold job = { q with
    present := insert job.id q.present
    queue := q.queue ++ [job]
    log := .accepted job :: q.log
    nextDeadline := d } := by
  obtain ⟨d, hd⟩ := trackDeadline_eq { q with
    present := insert job.id q.present
    queue := q.queue ++ [job]
    log := .accepted job :: q.log } job
  exact ⟨d, by rw [hold, hd]⟩

theorem hold_spills (q : AccountQueue) (job : Job) : (q.hold job).spills = q.spills := by
  obtain ⟨d, hd⟩ := hold_eq q job
  rw [hd]

theorem hold_store (q : AccountQueue) (job : Job) : (q.hold job).store = q.store := by
  obtain ⟨d, hd⟩ := hold_eq q job
  rw [hd]

theorem consume_store (q : AccountQueue) (i : Nat) (job : Job) :
    (q.consume i job).store = q.store := by
  unfold consume
  split <;> rfl

theorem loadNext_store (q : AccountQueue) (job : Job) : (q.loadNext job).store = q.store := by
  unfold loadNext loadJob
  split
  · split
    · exact consume_store q 0 job
    · rfl
  · exact (hold_store _ _).trans (consume_store q 0 job)

theorem loadNext_spills {rest : List SpillSource} (job : Job) (hs : q.spills = src :: rest) :
    ∃ src', (q.loadNext job).spills = src' :: rest ∧ src'.key = src.key ∧
      src'.after = cursorAt job := by
  have hc : ∃ src', (q.consume 0 job).spills = src' :: rest ∧ src'.key = src.key := by
    unfold consume
    split
    · exact ⟨{ src with consumed := src.consumed + 1 }, by simp [hs], rfl⟩
    · exact ⟨src, hs, rfl⟩
  have hl : ∃ src', (q.loadJob job).spills = src' :: rest ∧ src'.key = src.key := by
    unfold loadJob
    split
    · split
      · exact hc
      · exact ⟨src, hs, rfl⟩
    · rwa [hold_spills]
  obtain ⟨src', hs', hk⟩ := hl
  exact ⟨{ src' with after := cursorAt job }, by simp [loadNext, setAfter, hs'], hk, rfl⟩

/-- A page load is its jobs' turns, the source's end if the page was short, and a timer. -/
theorem refillPage_eq {rest : List SpillSource} (hs : q.spills = src :: rest) :
    ∃ u, q.refillPage c now clock =
      let page := q.store.queuedPage src.key src.after 0 c.pageSize clock
      let t := { page.foldl loadNext q with pagedOwnUntil := u }
      if page.length < c.pageSize then t.finishSpill else t := by
  unfold refillPage
  rw [hs]
  dsimp only
  cases hl : (q.store.queuedPage src.key src.after 0 c.pageSize clock).getLast? with
  | none =>
    rw [List.getLast?_eq_none_iff.mp hl]
    exact ⟨q.pagedOwnUntil, rfl⟩
  | some last =>
    rw [← foldl_loadJob_eq hl]
    exact ⟨_, rfl⟩

section Loads

variable (hp : ∀ q u, P q → P { q with pagedOwnUntil := u })
  (hload : ∀ (q : AccountQueue) src rest r, q.spills = src :: rest →
    r ∈ q.store.pendingUnder src.key clock → src.after.covers r.job = false →
    (∀ r' ∈ q.store.pendingUnder src.key clock, src.after.covers r'.job = false →
      r' = r ∨ (cursorAt r.job).covers r'.job = false) →
    P q → P (q.loadNext r.job.asQueued))

include hload in
/-- The page rows in turn; the source ends up with its cursor at the last of them. -/
theorem foldl_loadNext_induct {rest : List SpillSource} {rows : List Row}
    (hs : q.spills = src :: rest)
    (hr : Page.Reads Row.pos (q.store.pendingUnder src.key clock) src.after.pos rows) (h : P q) :
    P ((rows.map fun r => r.job.asQueued).foldl loadNext q) ∧
      ((rows.map fun r => r.job.asQueued).foldl loadNext q).store = q.store ∧
      ∃ src', ((rows.map fun r => r.job.asQueued).foldl loadNext q).spills = src' :: rest ∧
        src'.key = src.key ∧
        src'.after = Store.cursorAfter (rows.map fun r => r.job.asQueued) src.after := by
  induction rows generalizing q src with
  | nil => exact ⟨h, rfl, src, hs, rfl, rfl⟩
  | cons r rows ih =>
    obtain ⟨⟨hmem, ha, hnext⟩, hrows⟩ := hr
    have hP : P (q.loadNext r.job.asQueued) := by
      refine hload q src rest r hs hmem ((PageCursor.not_covers_iff _ _).mpr ha) ?_ h
      intro r' hr' ha'
      rcases hnext r' hr' ((PageCursor.not_covers_iff _ _).mp ha') with he | hlt
      · exact .inl he
      · exact .inr ((PageCursor.not_covers_iff _ _).mpr hlt)
    obtain ⟨src', hs', hk', ha'⟩ := loadNext_spills r.job.asQueued hs
    have hst := loadNext_store q r.job.asQueued
    have hreads : Page.Reads Row.pos
        ((q.loadNext r.job.asQueued).store.pendingUnder src'.key clock) src'.after.pos rows := by
      rw [hst, hk', ha']
      exact hrows
    obtain ⟨hfin, hstore, src'', hs'', hk'', ha''⟩ := ih hs' hreads hP
    refine ⟨hfin, hstore.trans hst, src'', hs'', hk''.trans hk', ha''.trans ?_⟩
    rw [Store.cursorAfter, Store.cursorAfter, List.map_cons, List.getLast?_cons]
    cases (rows.map fun r => r.job.asQueued).getLast? <;> simp [ha']

include hp hload in
theorem refillPage_induct
    (hfinish : ∀ (q : AccountQueue) src rest, q.spills = src :: rest →
      (∀ r ∈ q.store.pendingUnder src.key clock, src.after.covers r.job = true) →
      P q → P q.finishSpill)
    (h : P q) : P (q.refillPage c now clock) := by
  cases hs : q.spills with
  | nil =>
    unfold refillPage
    rwa [hs]
  | cons src rest =>
    obtain ⟨u, hu⟩ : ∃ u, q.refillPage c now clock = _ := refillPage_eq hs
    have hreads : Page.Reads Row.pos (q.store.pendingUnder src.key clock) src.after.pos
        (q.store.pageRows src.key src.after 0 c.pageSize clock) := Store.reads_pageRows
    obtain ⟨hP, hstore, src', hs', hk', ha'⟩ := foldl_loadNext_induct hload hs hreads h
    rw [hu]
    dsimp only
    split
    · next hshort =>
      refine hfinish _ src' rest hs' (fun r hr => ?_) (hp _ u hP)
      rw [ha']
      refine Store.cursorAfter_covers_of_short hshort ?_
      rwa [← hk', ← hstore]
    · exact hp _ u hP

end Loads

/-! ### Sweeps -/

theorem consume_spills_getElem? (job : Job) (hs : q.spills[i]? = some src) :
    ∃ src', (q.consume i job).spills[i]? = some src' ∧ src'.key = src.key ∧
      src'.after = src.after := by
  unfold consume
  split
  · exact ⟨{ src with consumed := src.consumed + 1 }, by simp [hs], rfl, rfl⟩
  · exact ⟨src, hs, rfl, rfl⟩

theorem sweepJob_spills (w : Time) (job : Job) (hs : q.spills[i]? = some src) :
    ∃ src', (q.sweepJob i w job).spills[i]? = some src' ∧ src'.key = src.key ∧
      src'.after = src.after := by
  unfold sweepJob
  split
  · exact ⟨src, hs, rfl, rfl⟩
  · exact consume_spills_getElem? job hs

/-- A sweep's turn for one job leaves every other row alone. -/
theorem mem_sweepJob_store {job : Job} {r : Row} (hr : r ∈ q.store.rows) (hne : r.id ≠ job.id) :
    r ∈ (q.sweepJob i now job).store.rows := by
  unfold sweepJob
  split
  · exact hr
  · dsimp only
    rw [consume_store]
    exact Store.mem_updateStatus.mpr (.inl ⟨hr, hne⟩)

theorem foldl_sweepJob_induct {key : String} {after cursor : PageCursor}
    (hjob : ∀ (q : AccountQueue) src r, q.spills[i]? = some src → src.key = key →
      src.after = after → r ∈ q.store.rows → r.queueKey = key → r.pending = true →
      cursor.covers r.job = false → r.id ∉ q.present → r.job.queueExpired now = true →
      P q → P (q.sweepJob i now r.job.asQueued))
    {rows : List Row} (hs : q.spills[i]? = some src) (hk : src.key = key) (ha : src.after = after)
    (hnd : (rows.map Row.id).Nodup)
    (hrows : ∀ r ∈ rows, r ∈ q.store.rows ∧ r.queueKey = key ∧ r.pending = true ∧
      cursor.covers r.job = false)
    (h : P q) :
    P ((rows.map fun r => r.job.asQueued).foldl (sweepJob i now) q) := by
  induction rows generalizing q src with
  | nil => exact h
  | cons r rows ih =>
    rw [List.map_cons, List.nodup_cons] at hnd
    obtain ⟨hr, hkey, hpend, hcur⟩ := hrows r List.mem_cons_self
    have hP : P (q.sweepJob i now r.job.asQueued) := by
      by_cases hskip : r.id ∈ q.present ∨ r.job.queueExpired now = false
      · unfold sweepJob
        rwa [if_pos (by simpa [Row.id] using hskip)]
      · rw [not_or, Bool.not_eq_false] at hskip
        exact hjob q src r hs hk ha hr hkey hpend hcur hskip.1 hskip.2 h
    obtain ⟨src', hs', hk', ha'⟩ := sweepJob_spills now r.job.asQueued hs
    refine ih hs' (hk'.trans hk) (ha'.trans ha) hnd.2 (fun r' hr' => ?_) hP
    obtain ⟨hm, hrest⟩ := hrows r' (List.mem_cons_of_mem r hr')
    refine ⟨mem_sweepJob_store hm fun he => hnd.1 ?_, hrest⟩
    have he' : r'.id = r.id := he
    exact he' ▸ List.mem_map_of_mem hr'

theorem sweepPage_induct {w : Sweep} (hsw : ∀ q s, P q → P { q with sweep := s })
    (hjob : ∀ src₀, q.spills[w.index]? = some src₀ → ∀ (t : AccountQueue) src r,
      t.spills[w.index]? = some src → src.key = src₀.key → src.after = src₀.after →
      r ∈ t.store.rows → r.queueKey = src₀.key → r.pending = true →
      w.cursor.covers r.job = false → r.id ∉ t.present → r.job.queueExpired w.now = true →
      P t → P (t.sweepJob w.index w.now r.job.asQueued))
    (h : P q) : P (q.sweepPage c w clock) := by
  unfold sweepPage
  split
  · exact hsw q none h
  next src hs =>
  have hfold : P ((q.store.queuedPage src.key w.cursor (unixMilli w.now - queuedTTL) c.pageSize
      clock).foldl (sweepJob w.index w.now) q) := by
    refine foldl_sweepJob_induct (hjob src hs) hs rfl rfl ?_ (fun r hr => ?_) h
    · have hnd : ((q.store.queuedPage src.key w.cursor (unixMilli w.now - queuedTTL) c.pageSize
        clock).map Job.id).Nodup := Store.nodup_queuedPage_ids
      rwa [Store.queuedPage, List.map_map] at hnd
    · obtain ⟨hm, hcov⟩ := Store.mem_pageRows hr
      obtain ⟨hrow, -, hkey, hpend⟩ := Store.mem_pendingUnder.mp hm
      exact ⟨hrow, hkey, hpend, hcov⟩
  dsimp only
  split
  · split
    · exact hsw _ _ hfold
    · exact hsw _ _ hfold
  · exact hsw _ _ hfold

/-! ### What one step does -/

/-- The step relation read off the step function, event by event. -/
def StepSpec (c : QueueConfig) (q t : AccountQueue) : Event → Prop
  | .reserve job => t = { q with reserved := q.reserved ++ [job], backlog := q.backlog + 1 }
  | .setKey job => job ∈ q.reserved ∧ t = { q with
      reserved := q.reserved.erase job
      stored := q.stored ++ [job]
      store := q.store.setQueueKey job.id c.storeKey }
  | .send job => job ∈ q.stored ∧
      t = { q with stored := q.stored.erase job, cmds := q.cmds ++ [job] }
  | .attachSpill key after remaining cutoff => t = { q with
      backlog := q.backlog + remaining
      spillPending := q.spillPending ++ [{ key, after, reserved := remaining, cutoff }] }
  | .throttle => t = { q with done := q.done ++ [.throttle] } ∨ t = q
  | .external op => t = { q with store := op.apply c.env q.store }
  | .execute _ x => ∃ job a b, q.running = a ++ ⟨job, none⟩ :: b ∧
      (x.response = .cancelled → q.stopping = true) ∧
      t = { q.applyEffect job.id x.now (Aquifer.execute job x).1 with
        running := a ++ ⟨(Aquifer.execute job x).2.1, some (Aquifer.execute job x).2.2⟩ :: b }
  | .report _ => ∃ job o a b, q.running = a ++ ⟨job, some o⟩ :: b ∧
      t = { q with running := a ++ b, done := q.done ++ [.attempt job o] }
  | .takeSpills => q.sweep = none ∧ t = q.takeSpills
  | .refillPage now clock => q.sweep = none ∧ q.refillDue c now = true ∧
      t = q.refillPage c now clock
  | .refillFail now => t = { q with refillRetryAt := now + refillRetryEvery }
  | .dropExpiredJobs now => t = q.dropExpiredJobs now
  | .dropExpiredWaiting now => t = q.dropExpiredWaiting now
  | .failDeadTarget now => t = q.failDeadTarget c now
  | .dispatch now => ∃ job rest, q.queue = job :: rest ∧ q.inFlight < q.maxConc ∧
      job.queueExpired now = false ∧ t = { q with
        queue := rest
        inFlight := q.inFlight + 1
        running := q.running ++ [{ job }]
        log := .dispatched job now :: q.log }
  | .recvCmd now clock => ∃ job rest, q.cmds = job :: rest ∧
      ((acceptHandoff c { q with cmds := rest } job now clock = true ∧
          t = hold { q with cmds := rest } job) ∨
        (acceptHandoff c { q with cmds := rest } job now clock = false ∧
          t = { q with cmds := rest }))
  | .recvDone now => (∃ rest, q.done = .throttle :: rest ∧ t = { q with done := rest }) ∨
      ∃ job o rest, q.done = .attempt job o :: rest ∧
        t = recvReport c { q with done := rest } job o now
  | .retryDue now => t = q.retryDue now
  | .sweepStart now => q.sweep = none ∧
      (t = q ∨ t = { q with lastSpillSweep := now, sweep := q.sweepAt now 0 })
  | .sweepPage clock => ∃ w, q.sweep = some w ∧ t = q.sweepPage c w clock
  | .sweepFail => ∃ w, q.sweep = some w ∧ t = { q with sweep := q.sweepAt w.now (w.index + 1) }
  | .idle => q.queue = [] ∧ q.inFlight = 0 ∧ q.waiting = [] ∧ q.spills = [] ∧
      (t = { q with alive := false } ∨ t = { q with maxConc := c.configuredMaxConc })
  | .panic now => t = q.panic c now
  | .stop => t = { q with stopping := true }
  | .stopLoop => q.stopping = true ∧ t = { q with backlog := 0, alive := false }
  | .stopHandoff job => q.stopping = true ∧ job ∈ q.stored ∧
      t = releaseBacklog { q with stored := q.stored.erase job } 1
  | .stopReport i => q.stopping = true ∧ t = { q with running := q.running.eraseIdx i }

/-- The place of an element in a list, and what replacing or removing it there leaves. -/
theorem exists_split_of_getElem? {α : Type} {l : List α} {x : α} (h : l[i]? = some x) :
    ∃ a b, l = a ++ x :: b ∧ (∀ y, l.set i y = a ++ y :: b) ∧ l.eraseIdx i = a ++ b := by
  obtain ⟨hi, rfl⟩ := List.getElem?_eq_some_iff.mp h
  refine ⟨l.take i, l.drop (i + 1), ?_, fun y => ?_, ?_⟩
  · rw [List.getElem_cons_drop, List.take_append_drop]
  · rw [List.set_eq_take_append_cons_drop, if_pos hi]
  · exact List.eraseIdx_eq_take_drop_succ l i

theorem stepOutside_spec (h : q.stepOutside c e = some t) : StepSpec c q t e := by
  cases e <;> simp only [stepOutside, Option.ite_none_right_eq_some, Option.some.injEq,
    reduceCtorEq] at h <;> simp only [StepSpec]
  case reserve => exact h.symm
  case setKey => exact ⟨h.1, h.2.symm⟩
  case send => exact ⟨h.1.1, h.2.symm⟩
  case attachSpill => exact h.symm
  case throttle =>
    split at h
    · exact .inl (Option.some.inj h).symm
    · exact .inr (Option.some.inj h).symm
  case external => exact h.symm
  case execute i x =>
    split at h
    · next job hi =>
      rw [Option.ite_none_right_eq_some, Option.some.injEq] at h
      obtain ⟨a, b, hab, hset, -⟩ := exists_split_of_getElem? hi
      exact ⟨job, a, b, hab, h.1, hset _ ▸ h.2.symm⟩
    · cases h
  case report i =>
    split at h
    · next job o hi =>
      rw [Option.ite_none_right_eq_some, Option.some.injEq] at h
      obtain ⟨a, b, hab, -, herase⟩ := exists_split_of_getElem? hi
      exact ⟨job, o, a, b, hab, herase ▸ h.2.symm⟩
    · cases h
  case stop => exact h.symm
  case stopHandoff => exact ⟨h.1.1, h.1.2, h.2.symm⟩
  case stopReport => exact ⟨h.1.1, h.2.symm⟩

theorem stepLoop_spec (hs : q.sweep = none) (h : q.stepLoop c e = some t) : StepSpec c q t e := by
  cases e <;> simp only [stepLoop, Option.ite_none_right_eq_some, Option.some.injEq,
    reduceCtorEq] at h <;> simp only [StepSpec]
  case takeSpills => exact ⟨hs, h.symm⟩
  case refillPage => exact ⟨hs, h.1, h.2.symm⟩
  case refillFail => exact h.2.symm
  case dropExpiredJobs => exact h.symm
  case dropExpiredWaiting => exact h.symm
  case failDeadTarget => exact h.symm
  case dispatch now =>
    unfold AccountQueue.dispatch at h
    split at h
    · cases h
    · next job rest hq =>
      rw [Option.ite_none_right_eq_some, Option.some.injEq] at h
      exact ⟨job, rest, hq, h.1.1, h.1.2, h.2.symm⟩
  case recvCmd now clock =>
    unfold AccountQueue.recvCmd at h
    split at h
    · cases h
    · next job rest hq =>
      refine ⟨job, rest, hq, ?_⟩
      dsimp only at h
      split at h
      · next ha => exact .inl ⟨ha, (Option.some.inj h).symm⟩
      · next ha => exact .inr ⟨by simpa using ha, (Option.some.inj h).symm⟩
  case recvDone now =>
    split at h
    · cases h
    · next rest hd => exact .inl ⟨rest, hd, (Option.some.inj h).symm⟩
    · next job o rest hd => exact .inr ⟨job, o, rest, hd, (Option.some.inj h).symm⟩
  case retryDue => exact h.symm
  case sweepStart now =>
    refine ⟨hs, ?_⟩
    split at h
    · exact .inl (Option.some.inj h).symm
    · exact .inr (Option.some.inj h).symm
  case idle =>
    unfold AccountQueue.idle at h
    rw [Option.ite_none_right_eq_some] at h
    obtain ⟨⟨hq, hi, hw, hsp⟩, h⟩ := h
    refine ⟨hq, hi, hw, hsp, ?_⟩
    split at h
    · exact .inl (Option.some.inj h).symm
    · exact .inr (Option.some.inj h).symm
  case panic => exact h.symm
  case stopLoop => exact ⟨h.1, h.2.symm⟩

theorem stepSweep_spec {w : Sweep} (hs : q.sweep = some w) (h : q.stepSweep c w e = some t) :
    StepSpec c q t e := by
  cases e <;> simp only [stepSweep, Option.some.injEq, reduceCtorEq] at h <;> simp only [StepSpec]
  case sweepPage => exact ⟨w, hs, h.symm⟩
  case sweepFail => exact ⟨w, hs, h.symm⟩
  case panic => exact h.symm

theorem step_spec (h : q.step c e = some t) : StepSpec c q t e := by
  unfold step at h
  rcases Option.or_eq_some_iff.mp h with h | ⟨-, h⟩
  · exact stepOutside_spec h
  · rw [Option.ite_none_right_eq_some] at h
    obtain ⟨-, h⟩ := h
    split at h
    · next w hs => exact stepSweep_spec hs h
    · next hs => exact stepLoop_spec hs h

section Scans

-- what one job's turn may do in a scan: its deadline is noted, it fails where it is held, or it
-- moves from the waiting jobs to the queue
variable (hd : ∀ q d, P q → P { q with nextDeadline := d })
  (hl : ∀ q now, P q → P { q with lastDeadSweep := now })
  (hq : ∀ (q : AccountQueue) (a : List Job) job b reason now, P { q with queue := a ++ job :: b } →
    P ({ q with queue := a ++ b }.failHeld job.id reason now))
  (hw : ∀ (q : AccountQueue) (a : List WaitingJob) w b reason now,
    P { q with waiting := a ++ w :: b } →
    P ({ q with waiting := a ++ b }.failHeld w.job.id reason now))
  (hr : ∀ (q : AccountQueue) (a : List WaitingJob) w b, P { q with waiting := a ++ w :: b } →
    P { q with waiting := a ++ b, queue := q.queue ++ [w.job] })

include hd hq in
theorem dropExpiredJobs_induct (h : P q) : P (q.dropExpiredJobs now) := by
  unfold dropExpiredJobs
  split
  · exact hd q 0 h
  split
  · exact h
  · apply foldl_queue_induct
    · rintro q a job b h rfl
      dsimp only
      split
      · exact hq q _ job b _ now h
      · obtain ⟨d, hd'⟩ := trackDeadline_eq { q with queue := q.queue ++ [job] } job
        rw [hd']
        simpa using hd _ d h
    · exact hd q 0 h

include hw in
theorem dropExpiredWaiting_induct (h : P q) : P (q.dropExpiredWaiting now) := by
  unfold dropExpiredWaiting
  apply foldl_waiting_induct
  · rintro q a w b h rfl
    dsimp only
    split
    · exact hw q _ w b _ now h
    · simpa using h
  · exact h

include hl hq hw in
theorem failDeadTarget_induct (h : P q) : P (q.failDeadTarget c now) := by
  unfold failDeadTarget
  split
  · exact h
  · unfold failDeadWaiting
    apply foldl_waiting_induct
    · rintro q a w b h rfl
      dsimp only
      split
      · exact hw q _ w b _ now h
      · simpa using h
    · unfold failDeadQueue
      apply foldl_queue_induct
      · rintro q a job b h rfl
        dsimp only
        split
        · exact hq q _ job b _ now h
        · simpa using h
      · exact hl q now h

include hd hr in
theorem retryDue_induct (h : P q) : P (q.retryDue now) := by
  unfold retryDue
  apply foldl_waiting_induct
  · rintro q a w b h rfl
    dsimp only
    split
    · simpa using h
    · obtain ⟨d, hd'⟩ := trackDeadline_eq { q with queue := q.queue ++ [w.job] } w.job
      rw [hd']
      exact hd _ d (hr q _ w b h)
  · exact h

def scans : Event → Bool
  | .dropExpiredJobs _ | .dropExpiredWaiting _ | .failDeadTarget _ | .retryDue _ => true
  | _ => false

include hd hl hq hw hr in
theorem scan_induct (he : scans e = true) (hstep : q.step c e = some t) (h : P q) : P t := by
  have hspec := step_spec hstep
  cases e <;> simp only [StepSpec] at hspec <;> simp only [scans, Bool.false_eq_true] at he
  case dropExpiredJobs => exact hspec ▸ dropExpiredJobs_induct hd hq h
  case dropExpiredWaiting => exact hspec ▸ dropExpiredWaiting_induct hw h
  case failDeadTarget => exact hspec ▸ failDeadTarget_induct hl hq hw h
  case retryDue => exact hspec ▸ retryDue_induct hd hr h

end Scans

end Aquifer.AccountQueue
