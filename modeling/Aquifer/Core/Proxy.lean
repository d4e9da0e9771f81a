import Aquifer.Core.Intake

/-! The handlers of `POST /jobs` and `POST /proxy`: direct attempts, cross-region redirects, the
fallback to the queue, and the answer to a duplicate. -/
namespace Aquifer

/-- `AttemptDirect`'s result; exactly one of these holds. -/
inductive ProxyOutcome
  | err (e : Refusal)
  | duplicate (existing : Option Job)
  | direct (status : Nat)
  | relay (region : String)
  | fallback (job : Job) (reason : String) (status : Nat)
deriving DecidableEq, Repr

/-- `redirectResult`, with the outcome of a tour that succeeded. -/
inductive Redirect
  | notApplicable
  | succeeded (outcome : ProxyOutcome)
  | exhausted
deriving DecidableEq, Repr

/-- The outcome of a hop that could be used. -/
def Hop.outcome (region : String) : Hop → Option ProxyOutcome
  | .unreachable | .refused => none
  | .direct status => some (.direct status)
  | .relay => some (.relay region)

/-- `attemptRedirect`: every region for a direct success, then one committing call to the first. -/
def attemptRedirect (job : Job) (w : Answers) : Redirect :=
  if job.originMachineID ≠ "" then .notApplicable
  else if !w.regionAdapter then .notApplicable
  else if w.gateOpen then .exhausted
  else
    match w.candidates with
    | [] => .exhausted
    | final :: _ =>
      match w.candidates.findSome? fun region => (w.hop region true).outcome region with
      | some outcome => .succeeded outcome
      | none =>
        match (w.hop final false).outcome final with
        | some outcome => .succeeded outcome
        | none => .exhausted

def fallbackOutcome (st : Store) (req : Request) (job : Job) (reason : String) (status : Nat)
    (tryRedirect : Bool) (w : Answers) : Store × ProxyOutcome :=
  match if tryRedirect then attemptRedirect job w else .notApplicable with
  -- the row is moot once another region has the job, or none could take it
  | .succeeded outcome => (st.deleteJob job.id, outcome)
  | .exhausted => (st.deleteJob job.id, .err (.redirectExhausted job.id))
  | .notApplicable =>
    (if req.directOnly then st.deleteJob job.id else st, .fallback job reason status)

/-- `AttemptDirect` from the point where the job is prepared. -/
def tryDirect (st : Store) (req : Request) (job : Job) (w : Answers) : Store × ProxyOutcome :=
  if job.executionExpired w.checked then (st, .fallback job "execution_deadline_exceeded" 0)
  else if job.poolID ≠ "" then fallbackOutcome st req job "pool_routed" 0 false w
  else
    match w.breakerOpen with
    | some kind => fallbackOutcome st req job "domain_degraded" 0 (kind = .reroute) w
    | none =>
      if w.queueActive then fallbackOutcome st req job "domain_degraded" 0 false w
      else
        match w.direct with
        | none => fallbackOutcome st req job "upstream_unreachable" 0 true w
        | some resp =>
          match resp.overload with
          | some kind =>
            fallbackOutcome st req job "upstream_overloaded" resp.status (kind = .reroute) w
          | none => (st.updateStatus job.id .completed w.completed, .direct resp.status)

def attemptDirect (env : Env) (st : Store) (req : Request) (w : Answers) : Store × ProxyOutcome :=
  match prepareJob env st req w with
  | (st, .refused e) => (st, .err e)
  | (st, .duplicate r) => (st, .duplicate (st.getJob r.jobID w.looked))
  | (st, .ready job) => tryDirect st req job w

/-- What a handler writes to its caller. -/
inductive Reply
  | error (status : Nat) (message : String)
  | draining
  | rejected (d : Admission.Decision)
  | redirectExhausted
  | schemaMismatch (message : String)
  | forwarded
  | result (r : EnqueueResult)
  | direct (status : Nat)
  | relay (region : String)
  | couldNotCompleteDirectly (reason : String) (status : Nat)
  | stream (job : Job) (fallback : Option (String × Nat))
  | finished (job : Job)
  /-- The handler panicked and the server dropped the connection. -/
  | panicked
deriving DecidableEq, Repr

def Refusal.reply : Refusal → Reply
  | .draining => .draining
  | .invalid message => .error 400 message
  | .schema message => .schemaMismatch message
  | .admission d => .rejected d
  | .redirectExhausted _ => .redirectExhausted

/-- What a handler makes of an HTTP request before the core sees it. -/
inductive Incoming
  | tooLarge (limit : Nat)
  | badJSON
  | badHeader (message : String)
  | forwarded
  | request (req : Request)
deriving DecidableEq, Repr

def createJob (env : Env) (n : Node) (req : Request) (w : Answers) : Node × Reply :=
  match enqueue env n req w with
  | (n, .error e) => (n, e.reply)
  | (n, .ok r) => (n, .result r)

/-- `streamExistingJob`, which reads the job's status before anything else. -/
def streamExistingJob (st : Store) (w : Answers) : Option Job → Reply
  | none => .panicked
  | some job =>
    if job.status = .completed ∨ job.status = .failed then .finished job
    else if (st.getJob job.id w.subscribed).isNone then .error 404 "job not found"
    else .stream job none

/-- The rest of `proxyJob`, once `AttemptDirect` has returned. -/
def answerProxy (n : Node) (req : Request) (w : Answers) : ProxyOutcome → Node × Reply
  | .err e => (n, e.reply)
  | .duplicate existing => (n, streamExistingJob n.store w existing)
  | .direct status => (n, .direct status)
  | .relay region => (n, .relay region)
  | .fallback job reason status =>
    if req.directOnly then (n, .couldNotCompleteDirectly reason status)
    -- `SubscribeJob`, before the hand-off
    else if (n.store.getJob job.id w.subscribed).isNone then (n, .error 404 "job not found")
    else
      match dispatch n job w with
      | (n, some (.admission d)) => (n, .rejected d)
      | (n, some _) => (n, .error 400 "aquifer is draining")
      | (n, none) => (n, .stream job (some (reason, status)))

def proxyJob (env : Env) (n : Node) (req : Request) (w : Answers) : Node × Reply :=
  answerProxy { n with store := (attemptDirect env n.store req w).1 } req w
    (attemptDirect env n.store req w).2

inductive Route
  | jobs
  | proxy
deriving DecidableEq, Repr

/-- A whole request, whichever handler it goes to. -/
def serve (env : Env) (n : Node) (route : Route) : Incoming → Answers → Node × Reply
  | .tooLarge _, _ => (n, .error 413 "request body too large")
  | .badJSON, _ => (n, .error 400 "invalid json")
  | .badHeader message, _ => (n, .error 400 message)
  | .forwarded, _ => (n, .forwarded)
  | .request req, w =>
    match route with
    | .jobs => createJob env n req w
    | .proxy => proxyJob env n req w

/-- A tour of other regions is made: the request is not a hop of one, and regions are configured. -/
def Answers.redirects (w : Answers) (job : Job) : Bool :=
  job.originMachineID = "" && w.regionAdapter

/-- A prepared job that is neither completed directly nor offered to other regions. -/
def Answers.goesLocal (w : Answers) (job : Job) : Bool :=
  job.executionExpired w.checked || job.poolID ≠ "" ||
    match w.breakerOpen with
    | some kind => !(kind = .reroute && w.redirects job)
    | none => w.queueActive ||
      match w.direct with
      | none => !w.redirects job
      | some resp =>
        match resp.overload with
        | some kind => !(kind = .reroute && w.redirects job)
        | none => false

section Outcomes

variable {st : Store} {req : Request} {job : Job} {w : Answers} {reason : String} {status : Nat}
  {tryRedirect : Bool}

def ProxyOutcome.isFallback : ProxyOutcome → Bool
  | .fallback .. => true
  | _ => false

/-- Nothing is left to do for the job, or nothing that is done here. -/
def ProxyOutcome.final : ProxyOutcome → Bool
  | .err _ | .direct _ | .relay _ => true
  | .duplicate _ | .fallback .. => false

theorem ProxyOutcome.isFallback_of_final {out : ProxyOutcome} (h : out.final = true) :
    out.isFallback = false := by
  cases out <;> first | rfl | cases h

theorem attemptRedirect_none (h : w.redirects job = false) :
    attemptRedirect job w = .notApplicable := by
  unfold attemptRedirect
  split
  · rfl
  · next hid =>
    have hreg : w.regionAdapter = false := by
      simpa [Answers.redirects, not_not.mp hid] using h
    simp [hreg]

theorem Hop.outcome_final {hop : Hop} {region : String} {out : ProxyOutcome}
    (h : hop.outcome region = some out) : out.final = true := by
  cases hop <;> simp [outcome] at h <;> subst h <;> rfl

/-- A tour ends with an answer from elsewhere or with none left to ask. -/
theorem attemptRedirect_some (h : w.redirects job = true) :
    attemptRedirect job w = .exhausted ∨
      ∃ out, attemptRedirect job w = .succeeded out ∧ out.final = true := by
  obtain ⟨hid, hreg⟩ : job.originMachineID = "" ∧ w.regionAdapter = true := by
    simpa [Answers.redirects] using h
  simp only [attemptRedirect, hid, hreg, ne_eq, not_true_eq_false, if_false, Bool.not_true,
    Bool.false_eq_true]
  split
  · exact .inl rfl
  split
  · exact .inl rfl
  split
  · next hfound =>
    obtain ⟨region, -, hhop⟩ := List.exists_of_findSome?_eq_some hfound
    exact .inr ⟨_, rfl, Hop.outcome_final hhop⟩
  split
  · next hhop => exact .inr ⟨_, rfl, Hop.outcome_final hhop⟩
  · exact .inl rfl

/-- Without a tour the row stays, unless the caller wanted a direct answer or none. -/
theorem fallbackOutcome_local (h : (tryRedirect && w.redirects job) = false) :
    fallbackOutcome st req job reason status tryRedirect w =
      (if req.directOnly then st.deleteJob job.id else st, .fallback job reason status) := by
  unfold fallbackOutcome
  cases tryRedirect with
  | false => rfl
  | true =>
    rw [Bool.true_and] at h
    simp [attemptRedirect_none h]

/-- After a tour the row is gone, whatever the tour brought. -/
theorem fallbackOutcome_away (st : Store) (req : Request) (reason : String) (status : Nat)
    (h : (tryRedirect && w.redirects job) = true) :
    ∃ out, fallbackOutcome st req job reason status tryRedirect w = (st.deleteJob job.id, out) ∧
      out.final = true := by
  obtain ⟨rfl, hr⟩ := Bool.and_eq_true_iff.mp h
  unfold fallbackOutcome
  rcases attemptRedirect_some hr with he | ⟨out, he, hout⟩
  · exact ⟨.err (.redirectExhausted job.id), by simp [he], rfl⟩
  · exact ⟨out, by simp [he], hout⟩

/-- Before its deadline a job is completed directly, or falls back with or without a tour. -/
theorem tryDirect_cases (st : Store) (req : Request)
    (hexp : job.executionExpired w.checked = false) :
    (∃ reason status tryRedirect,
      tryDirect st req job w = fallbackOutcome st req job reason status tryRedirect w ∧
        w.goesLocal job = !(tryRedirect && w.redirects job)) ∨
    ∃ status, tryDirect st req job w =
        (st.updateStatus job.id .completed w.completed, .direct status) ∧
      w.goesLocal job = false := by
  unfold tryDirect Answers.goesLocal
  simp only [hexp, Bool.false_eq_true, if_false, Bool.false_or]
  by_cases hpool : job.poolID = ""
  · cases w.breakerOpen with
    | some kind =>
      exact .inl ⟨"domain_degraded", 0, kind = .reroute, by simp [hpool], by simp [hpool]⟩
    | none =>
      cases w.queueActive with
      | true => exact .inl ⟨"domain_degraded", 0, false, by simp [hpool], by simp⟩
      | false =>
        cases w.direct with
        | none => exact .inl ⟨"upstream_unreachable", 0, true, by simp [hpool], by simp [hpool]⟩
        | some resp =>
          cases hov : resp.overload with
          | some kind =>
            exact .inl ⟨"upstream_overloaded", resp.status, kind = .reroute, by simp [hpool, hov],
              by simp [hpool, hov]⟩
          | none => exact .inr ⟨resp.status, by simp [hpool, hov], by simp [hpool, hov]⟩
  · exact .inl ⟨"pool_routed", 0, false, by simp [hpool], by simp [hpool]⟩

/-- A job that goes local falls back; only one whose deadline has passed keeps its row whatever the
caller wanted. -/
theorem tryDirect_local (st : Store) (req : Request) (h : w.goesLocal job = true) :
    ∃ reason status, tryDirect st req job w =
      (if req.directOnly && !job.executionExpired w.checked then st.deleteJob job.id else st,
        .fallback job reason status) := by
  cases hexp : job.executionExpired w.checked with
  | true => exact ⟨"execution_deadline_exceeded", 0, by simp [tryDirect, hexp]⟩
  | false =>
    rcases tryDirect_cases st req hexp with ⟨reason, status, tr, he, hl⟩ | ⟨_, -, hl⟩
    · rw [h, eq_comm, Bool.not_eq_true'] at hl
      exact ⟨reason, status, by rw [he, fallbackOutcome_local hl]; simp⟩
    · exact absurd (h.symm.trans hl) (by simp)

/-- Any other prepared job leaves no pending row. -/
theorem tryDirect_away (st : Store) (req : Request) (h : w.goesLocal job = false) :
    ∃ out, out.final = true ∧ (tryDirect st req job w = (st.deleteJob job.id, out) ∨
      tryDirect st req job w = (st.updateStatus job.id .completed w.completed, out)) := by
  have hexp : job.executionExpired w.checked = false := by
    by_contra hexp
    simp [Answers.goesLocal, hexp] at h
  rcases tryDirect_cases st req hexp with ⟨reason, status, tr, he, hl⟩ | ⟨status, he, -⟩
  · rw [h, eq_comm, Bool.not_eq_false'] at hl
    obtain ⟨out, hout, hnf⟩ := fallbackOutcome_away st req reason status hl
    exact ⟨out, hnf, .inl (he.trans hout)⟩
  · exact ⟨.direct status, rfl, .inr he⟩

end Outcomes

/-- A row the request inserted is terminal by now, or a queue has the job. -/
def Node.Settled (n : Node) (id : String) : Prop :=
  ∀ r ∈ n.store.rows, r.id = id → r.pending = true → id ∈ n.owned

section Settled

variable {env : Env} {n : Node} {st : Store} {req : Request} {w : Answers} {job : Job} {id : String}
  {out : ProxyOutcome}

theorem settled_of_find (h : n.store.find id = none) : n.Settled id :=
  fun r hr hid => absurd hid (Table.find_eq_none_iff.mp h r hr)

theorem settled_deleteJob {owned : List String} :
    (⟨st.deleteJob id, owned⟩ : Node).Settled id := by
  intro r hr hid
  exact absurd hid (Table.mem_erase.mp hr).2

theorem settled_completed {owned : List String} {now : Time} :
    (⟨st.updateStatus id .completed now, owned⟩ : Node).Settled id := by
  intro r hr hid hp
  have hdone : Status.completed.pending = false := rfl
  exact absurd hid ((Store.mem_updateStatus_pending hdone).mp ⟨hr, hp⟩).2

theorem settled_dispatch : (dispatch n job w).1.Settled job.id := by
  unfold dispatch
  split
  · exact settled_deleteJob
  · exact fun _ _ _ _ => List.mem_cons_self

/-- `POST /jobs` never leaves a ghost: every refusal takes the row back. -/
theorem settled_createJob (hid : n.store.find w.id = none) :
    (createJob env n req w).1.Settled w.id := by
  have hnode : (createJob env n req w).1 = (enqueue env n req w).1 := by
    unfold createJob
    split <;> next he => rw [he]
  have hn : n.Settled w.id := settled_of_find hid
  rw [hnode]
  by_cases h : w.Reaches env n.store req
  · by_cases hp : w.Passes env req
    · rcases enqueue_passed h hid hp with ⟨e, -, he⟩ | ⟨-, he⟩ <;> rw [he]
      · exact hn
      · exact fun _ _ _ _ => List.mem_cons_self
    · rcases enqueue_stopped h hid hp with ⟨e, -, he⟩ | ⟨e, -, he⟩ <;> rw [he] <;> exact hn
  · rcases enqueue_unreached h with ⟨e, he⟩ | ⟨r, -, -, he⟩ <;> rw [he] <;> exact hn

theorem answerProxy_of_not_fallback (h : out.isFallback = false) :
    (answerProxy n req w out).1 = n := by
  cases out <;> first | rfl | cases h

theorem attemptDirect_ready (h : w.Reaches env st req) (hid : st.find w.id = none)
    (hp : w.Passes env req) :
    attemptDirect env st req w = tryDirect (w.written env st req) req (w.job env req) w := by
  simp [attemptDirect, prepareJob_free h hid, hp]

theorem attemptDirect_unready (hid : st.find w.id = none)
    (h : ¬ (w.Reaches env st req ∧ w.Passes env req)) :
    ∃ out, attemptDirect env st req w = (st, out) ∧ out.isFallback = false := by
  by_cases hr : w.Reaches env st req
  · have hp : ¬ w.Passes env req := fun hp => h ⟨hr, hp⟩
    have hprep := prepareJob_free hr hid
    rw [if_neg hp] at hprep
    cases hs : screen env w (w.job env req) with
    | ready job => exact absurd (screen_eq_ready_iff.mp hs).1 hp
    | refused e => exact ⟨.err e, by simp [attemptDirect, hprep, hs], rfl⟩
    | duplicate e =>
      exact ⟨.duplicate (st.getJob e.jobID w.looked), by simp [attemptDirect, hprep, hs], rfl⟩
  · by_cases ho : w.Opens env req
    · obtain ⟨r, hkey⟩ : ∃ r, st.findAlt (req.hash env) = some r :=
        Option.ne_none_iff_exists'.mp fun hnone => hr ⟨ho, hnone⟩
      exact ⟨.duplicate (st.getJob r.id w.looked),
        by simp [attemptDirect, prepareJob_taken ho hkey],
        rfl⟩
    · obtain ⟨e, he⟩ := prepareJob_closed st ho
      exact ⟨.err e, by simp [attemptDirect, he], rfl⟩

theorem settled_written_iff {owned : List String} (hown : w.id ∉ owned)
    (hfree : st.findAlt (req.hash env) = none) (hid : st.find w.id = none) :
    (⟨w.written env st req, owned⟩ : Node).Settled w.id ↔ w.write.ok = false := by
  constructor
  · intro h
    by_contra hok
    rw [Bool.not_eq_false] at hok
    exact hown (h _ (Answers.newRow_mem_written hid hfree hok) rfl rfl)
  · intro hok r hr hrid
    exact absurd (Answers.mem_written hid hr hrid).1 (by simp [hok])

theorem getJob_written_isSome (now : Time) (hfree : st.findAlt (req.hash env) = none)
    (hid : st.find w.id = none) :
    ((w.written env st req).getJob w.id now).isSome ↔
      w.write.ok = true ∧ unixMilli now < (w.job env req).pendingExpiresAt w.inserted := by
  rw [Store.getJob_isSome_iff]
  constructor
  · rintro ⟨r, hr, hl⟩
    obtain ⟨hmem, hrid⟩ := Table.find_eq_some_iff.mp hr
    obtain ⟨hok, rfl⟩ := Answers.mem_written hid hmem hrid
    exact ⟨hok, of_decide_eq_true hl⟩
  · rintro ⟨hok, hl⟩
    exact ⟨_, Table.find_eq_some_iff.mpr ⟨Answers.newRow_mem_written hid hfree hok, rfl⟩,
      decide_eq_true hl⟩

theorem settled_proxyJob_unready (hid : n.store.find w.id = none)
    (h : ¬ (w.Reaches env n.store req ∧ w.Passes env req)) :
    (proxyJob env n req w).1.Settled w.id := by
  obtain ⟨out, hout, hnf⟩ := attemptDirect_unready hid h
  rw [proxyJob, hout, answerProxy_of_not_fallback hnf]
  exact settled_of_find hid

theorem settled_proxyJob_away (h : w.Reaches env n.store req) (hid : n.store.find w.id = none)
    (hp : w.Passes env req) (hl : w.goesLocal (w.job env req) = false) :
    (proxyJob env n req w).1.Settled w.id := by
  obtain ⟨out, hfin, hout⟩ := tryDirect_away (w.written env n.store req) req hl
  have hnf := ProxyOutcome.isFallback_of_final hfin
  rw [proxyJob, attemptDirect_ready h hid hp]
  rcases hout with hout | hout <;> rw [hout, answerProxy_of_not_fallback hnf]
  · exact settled_deleteJob
  · exact settled_completed

/-- The hand-off of a job that fell back and whose row is visible settles it; otherwise the row
stays as it is. -/
theorem settled_proxyJob_local (h : w.Reaches env n.store req) (hid : n.store.find w.id = none)
    (hp : w.Passes env req) (hown : w.id ∉ n.owned) (hl : w.goesLocal (w.job env req) = true) :
    (proxyJob env n req w).1.Settled w.id ↔ (w.write.ok = true →
      ¬ (req.directOnly = true ∧ (w.job env req).executionExpired w.checked = true) ∧
      (req.directOnly = false →
        unixMilli w.subscribed < (w.job env req).pendingExpiresAt w.inserted)) := by
  have hrow := settled_written_iff hown h.2 hid
  obtain ⟨reason, status, hout⟩ := tryDirect_local (w.written env n.store req) req hl
  rw [proxyJob, attemptDirect_ready h hid hp, hout]
  cases hd : req.directOnly with
  | true =>
    cases he : (w.job env req).executionExpired w.checked with
    | true => simp [answerProxy, hd, hrow]
    | false => simp [answerProxy, hd, settled_deleteJob]
  | false =>
    have hsome := getJob_written_isSome w.subscribed h.2 hid
    simp only [answerProxy, hd, Bool.false_and, Bool.false_eq_true, if_false, false_and,
      not_false_eq_true, true_and, forall_const, Answers.job_id]
    cases hg : (w.written env n.store req).getJob w.id w.subscribed with
    | none =>
      rw [hg, Option.isSome_none, Bool.false_eq_true, false_iff, not_and] at hsome
      rw [if_pos Option.isNone_none, hrow]
      constructor
      · intro hok hok'
        exact absurd (hok.symm.trans hok') (by simp)
      · intro hlive
        by_contra hok
        rw [Bool.not_eq_false] at hok
        exact hsome hok (hlive hok)
    | some job =>
      rw [hg, Option.isSome_some, eq_self, true_iff] at hsome
      refine iff_of_true ?_ fun _ => hsome.2
      have hset : (dispatch ⟨w.written env n.store req, n.owned⟩ (w.job env req) w).1.Settled
        w.id :=
        settled_dispatch
      rw [if_neg (by simp)]
      split <;> next he => rw [he] at hset; exact hset

end Settled

/-- Once a handler has answered, a pending row it inserted is owned by a queue, exactly when a
prepared `/proxy` request is not a `direct_only` one past its deadline, and one that falls back to
the queue finds its row unexpired when it subscribes. -/
theorem no_ghost_rows_iff (env : Env) (n : Node) (route : Route) (incoming : Incoming) (w : Answers)
    (hid : n.store.find w.id = none) (hown : w.id ∉ n.owned) :
    (serve env n route incoming w).1.Settled w.id ↔
      ∀ req, route = .proxy → incoming = .request req → w.Reaches env n.store req →
        w.Passes env req → w.write.ok = true →
        ¬ (req.directOnly = true ∧ (w.job env req).executionExpired w.checked = true) ∧
        (req.directOnly = false → w.goesLocal (w.job env req) = true →
          unixMilli w.subscribed < (w.job env req).pendingExpiresAt w.inserted) := by
  have hn : n.Settled w.id := settled_of_find hid
  cases incoming with
  | tooLarge | badJSON | badHeader | forwarded => simpa [serve] using hn
  | request req =>
    cases route with
    | jobs => simpa [serve] using settled_createJob hid
    | proxy =>
      simp only [serve, forall_const, Incoming.request.injEq, forall_eq']
      by_cases h : w.Reaches env n.store req ∧ w.Passes env req
      · obtain ⟨h, hp⟩ := h
        cases hl : w.goesLocal (w.job env req) with
        | true => simpa [h, hp] using settled_proxyJob_local h hid hp hown hl
        | false =>
          refine iff_of_true (settled_proxyJob_away h hid hp hl) fun _ _ _ => ⟨?_, by simp⟩
          rintro ⟨-, hexp⟩
          simp [Answers.goesLocal, hexp] at hl
      · refine iff_of_true (settled_proxyJob_unready hid h) fun hr hp => absurd ⟨hr, hp⟩ h

def proxied (req : Request) (w : Answers) : Node × Reply :=
  serve plainEnv emptyNode .proxy (.request req) w

/-- The redirect hop of a request whose deadline has passed when it arrives. -/
def lateHop : Node × Reply :=
  proxied { plainRequest with executeBefore := 1, directOnly := true }
    { id := "1", checked := 2000000 }

/-- A request with the latest deadline there is, for a target that is busy. -/
def lastDeadline : Node × Reply :=
  proxied { plainRequest with executeBefore := 9223372036854775807 }
    { id := "1", queueActive := true }

/-- The first is answered 503 and its row stays. So does the row of the second, whose expiry has
overflowed: the job just stored is not found. -/
theorem ghost_rows_left :
    (lateHop.2 = .couldNotCompleteDirectly "execution_deadline_exceeded" 0 ∧
      lateHop.1.store.rows.map (fun r => (r.id, r.pending)) = [("1", true)] ∧
      lateHop.1.owned = []) ∧
    lastDeadline.2 = .error 404 "job not found" ∧
      lastDeadline.1.store.rows.map (fun r => (r.id, r.pending)) = [("1", true)] ∧
      lastDeadline.1.owned = [] := by
  decide +kernel

/-- A request whose target is busy falls back to the queue, which then owns the row. -/
theorem busy_target_settled :
    (proxied plainRequest { id := "1", queueActive := true }).1.Settled "1" := by
  refine (no_ghost_rows_iff plainEnv emptyNode .proxy (.request plainRequest)
    { id := "1", queueActive := true } rfl (by decide)).mpr ?_
  rintro req - hreq - - -
  cases hreq
  exact ⟨by decide, fun _ _ => by decide⟩

/-! ### Duplicates -/

section Duplicates

variable {env : Env} {st : Store} {n : Node} {req : Request} {w : Answers} {job : Job}

/-- Only a missing duplicate panics, and only a direct outcome is answered as one. -/
theorem answerProxy_iff (status : Nat) {out : ProxyOutcome} :
    ((answerProxy n req w out).2 = .panicked ↔ out = .duplicate none) ∧
      ((answerProxy n req w out).2 = .direct status ↔ out = .direct status) := by
  cases out with
  | err e => cases e <;> simp [answerProxy, Refusal.reply]
  | direct | relay => simp [answerProxy]
  | duplicate existing =>
    cases existing with
    | none => simp [answerProxy, streamExistingJob]
    | some job =>
      simp only [answerProxy, streamExistingJob]
      split
      · simp
      split <;> simp
  | fallback job reason status =>
    simp only [answerProxy]
    split
    · simp
    split
    · simp
    split <;> simp

end Duplicates

end Aquifer
