import Aquifer.Jobs
import Aquifer.Lib.Assoc
import Aquifer.Lib.Trace

/-! The streams of one job. A stream subscribes, is handed a snapshot of the job from one of three
places, writes what the snapshot shows and then what its channel brings, while the job's execution
writes the status, the result and the final event one after the other. -/
namespace Aquifer

inductive StreamEvent
  | proxyFallback
  | queued
  | dispatching
  | position
  | retrying
  | completed
  | failed
deriving DecidableEq, Repr

/-- The events after which `streamEvents` returns. -/
def StreamEvent.final : StreamEvent → Bool
  | .completed | .failed => true
  | _ => false

/-- The event named by a finished job's status. -/
def Status.finalEvent : Status → Option StreamEvent
  | .completed => some .completed
  | .failed => some .failed
  | .queued | .inFlight => none

/-- The requests that open a stream: `GET /jobs/{id}/stream`, a `/proxy` request that falls back to
the queue, and a `/proxy` request that duplicates a stored job. -/
inductive StreamPath
  | get
  | fallback
  | duplicate
deriving DecidableEq, Repr

/-- Where a stream is: a duplicate with the job it was handed, not yet subscribed; between
`Subscribe` and `GetJob`; at the start of `streamEvents`; in its loop; returned. -/
inductive StreamPlace
  | seen
  | subscribed
  | opening
  | live
  | ended
deriving DecidableEq, Repr

/-- `job` is the status of the job `streamEvents` is given. -/
structure Stream where
  path : StreamPath
  place : StreamPlace
  job : Option Status := none
  channel : List StreamEvent := []
  written : List StreamEvent := []
deriving DecidableEq, Repr

namespace Stream

def capacity : Nat := 10

def registered (σ : Stream) : Bool :=
  σ.place = .subscribed || σ.place = .opening || σ.place = .live

/-- One send of `Publish` and `PublishTerminal`: a full channel loses the event. -/
def offer (e : StreamEvent) (σ : Stream) : Stream :=
  if σ.registered ∧ σ.channel.length < capacity then { σ with channel := σ.channel ++ [e] } else σ

/-- What `streamEvents` writes before it looks for a stored result. -/
def catchUp (path : StreamPath) (job : Status) : List StreamEvent :=
  (if path = .fallback then [.proxyFallback] else []) ++ [.queued] ++
    (if job = .queued then [] else [.dispatching])

/-- `streamEvents` up to its loop, with what `JobResult` answers. -/
def begin (σ : Stream) (job : Status) (result : Bool) : Stream :=
  match job.finalEvent with
  | some e =>
    if result then { σ with place := .ended, written := catchUp σ.path job ++ [e] }
    else { σ with place := .live, written := catchUp σ.path job }
  | none => { σ with place := .live, written := catchUp σ.path job }

def write (σ : Stream) (e : StreamEvent) (rest : List StreamEvent) : Stream :=
  { σ with
    place := if e.final then .ended else .live
    channel := rest
    written := σ.written ++ [e] }

/-- The final events the stream has written or still holds for writing. -/
def finals (σ : Stream) : Nat :=
  σ.written.countP StreamEvent.final +
    if σ.place = .ended then 0 else σ.channel.countP StreamEvent.final

end Stream

/-- The job's row; `result` says that one is stored. -/
structure StreamRow where
  status : Status
  expired : Bool := false
  result : Bool := false
deriving DecidableEq, Repr

/-- How far the job's execution has come: its `/proxy` request tries it directly; that request has
given up and not yet called `Dispatch`; a queue has it; its final status is written; its result is;
its final event is out. In `panicked` the handler of a panic has written the failure. -/
inductive Execution
  | direct
  | fallenBack
  | dispatched
  | updated (status : Status)
  | stored (status : Status)
  | published
  | panicked
deriving DecidableEq, Repr

def Execution.over (x : Execution) : Bool := x = .published || x = .panicked

structure JobStreams where
  execution : Execution
  row : Option StreamRow
  streams : Assoc Nat Stream := ∅

namespace JobStreams

/-- The steps of the job's execution and of its row's expiry. -/
inductive JobAct
  /-- A position, a dispatch or a retry is published. -/
  | publish (e : StreamEvent)
  /-- An attempt was cut off by a shutdown. -/
  | requeue
  | recordRetry
  | updateStatus (status : Status)
  | putResult
  | publishFinal
  | panic
  | expire
  | deleteExpired
deriving DecidableEq, Repr

/-- The steps of a request that has opened a stream. -/
inductive StreamAct
  | subscribe
  | getJob
  | dispatch
  | streamEvents
  | receive
  | leave
deriving DecidableEq, Repr

inductive Event
  | job (a : JobAct)
  | request (id : Nat) (path : StreamPath)
  | stream (id : Nat) (a : StreamAct)
deriving DecidableEq, Repr

/-- A stored job nobody streams, made by a `/proxy` request or already with a queue. -/
def new (proxied : Bool) (status : Status) : JobStreams :=
  { execution := if proxied then .direct else .dispatched
    row := some { status } }

def getJob (s : JobStreams) : Option Status :=
  s.row.bind fun r => if r.expired then none else some r.status

def jobResult (s : JobStreams) : Bool := s.row.any fun r => !r.expired && r.result

def updateStatus (s : JobStreams) (status : Status) : JobStreams :=
  { s with row := s.row.map fun r => { r with status, expired := false } }

def publish (s : JobStreams) (e : StreamEvent) : JobStreams :=
  { s with streams := Assoc.mapVal s.streams (Stream.offer e) }

def setStream (s : JobStreams) (id : Nat) (σ : Stream) : JobStreams :=
  { s with streams := s.streams.insert id σ }

def dropStream (s : JobStreams) (id : Nat) : JobStreams :=
  { s with streams := s.streams.erase id }

def request (s : JobStreams) (id : Nat) : StreamPath → Option JobStreams
  | .get => some (s.setStream id ⟨.get, .subscribed, none, [], []⟩)
  -- the request that made the job subscribes before it calls `Dispatch`
  | .fallback =>
    if s.execution = .direct then
      some { s.setStream id ⟨.fallback, .subscribed, some .queued, [], []⟩ with
        execution := .fallenBack }
    else none
  -- a duplicate of a finished job is answered at once and opens no stream
  | .duplicate =>
    s.getJob.bind fun status =>
      if status.pending then some (s.setStream id ⟨.duplicate, .seen, some status, [], []⟩)
        else none

def streamStep (s : JobStreams) (id : Nat) (σ : Stream) : StreamAct → Option JobStreams
  | .subscribe =>
    if σ.place = .seen then some (s.setStream id { σ with place := .subscribed }) else none
  -- of the three callers only `streamJob` keeps the job that `SubscribeJob` reads
  | .getJob =>
    if σ.place = .subscribed then
      some (match s.getJob with
        | some status => s.setStream id { σ with place := .opening, job := σ.job.or (some status) }
        | none => s.dropStream id)
    else none
  | .dispatch =>
    if σ.path = .fallback ∧ σ.place = .opening ∧ s.execution = .fallenBack then
      some { s with execution := .dispatched }
    else none
  | .streamEvents =>
    if σ.place = .opening ∧ ¬ (σ.path = .fallback ∧ s.execution = .fallenBack) then
      σ.job.map fun status => s.setStream id (σ.begin status s.jobResult)
    else none
  | .receive =>
    match σ.channel with
    | e :: rest => if σ.place = .live then some (s.setStream id (σ.write e rest)) else none
    | [] => none
  | .leave => if σ.place = .live then some (s.dropStream id) else none

def jobStep (s : JobStreams) : JobAct → Option JobStreams
  | .publish e => if e.final then none else some (s.publish e)
  | .requeue => if s.execution = .dispatched then some (s.updateStatus .queued) else none
  | .recordRetry =>
    if s.execution = .dispatched then
      some { s with row := s.row.map fun r => { r with status := .queued } }
    else none
  | .updateStatus status =>
    if status = .completed ∧ s.execution = .direct ∨
        status.pending = false ∧ s.execution = .dispatched then
      some { s.updateStatus status with execution := .updated status }
    else none
  | .putResult =>
    match s.execution with
    | .updated status =>
      some { s with
        row := s.row.map fun r => { r with result := true }
        execution := .stored status }
    | _ => none
  | .publishFinal =>
    match s.execution with
    | .stored status => status.finalEvent.map fun e => { s.publish e with execution := .published }
    | _ => none
  -- the handler writes the failed status and nothing else of a finish
  | .panic =>
    match s.execution with
    | .direct | .fallenBack | .panicked => none
    | .published => some (s.updateStatus .failed)
    | _ => some { s.updateStatus .failed with execution := .panicked }
  | .expire => some { s with row := s.row.map fun r => { r with expired := true } }
  | .deleteExpired =>
    if s.row.any fun r => r.expired then some { s with row := none } else none

def step (s : JobStreams) : Event → Option JobStreams
  | .job a => s.jobStep a
  | .request id path => if s.streams.lookup id = none then s.request id path else none
  | .stream id a => (s.streams.lookup id).bind fun σ => s.streamStep id σ a

/-- Every channel the broker holds has room for the final event; a duplicate subscribes before that
event is out; a stream that begins on a finished job after it finds the result, or has the event in
its channel; and no panic takes the place of the final publish. -/
def Orderly (s : JobStreams) : Event → Prop
  | .job .publishFinal =>
    ∀ e ∈ s.streams.entries, e.2.registered = true → e.2.channel.length < Stream.capacity
  | .job .panic => s.execution = .published
  | .stream _ .subscribe => s.execution ≠ .published
  | .stream id .streamEvents =>
    s.execution = .published → ∀ σ ∈ s.streams.lookup id,
      s.jobResult = true ∨ 0 < σ.channel.countP StreamEvent.final ∨ ∀ st ∈ σ.job, st.pending = true
  | _ => True

instance (s : JobStreams) : (e : Event) → Decidable (s.Orderly e)
  | .job .publishFinal => inferInstanceAs (Decidable (∀ e ∈ s.streams.entries, _ → _))
  | .job .panic => inferInstanceAs (Decidable (_ = _))
  | .stream _ .subscribe => inferInstanceAs (Decidable (_ ≠ _))
  | .stream _ .streamEvents => inferInstanceAs (Decidable (_ → ∀ σ ∈ s.streams.lookup _, _))
  | .job (.publish _) | .job .requeue | .job .recordRetry | .job (.updateStatus _)
  | .job .putResult | .job .expire | .job .deleteExpired | .request _ _ | .stream _ .getJob
  | .stream _ .dispatch | .stream _ .receive | .stream _ .leave => isTrue trivial

end JobStreams

namespace Stream

variable {σ : Stream} {out result : Bool} {e : StreamEvent} {rest : List StreamEvent} {st : Status}

/-- The final events in the channel, and those written. -/
def held (σ : Stream) : Nat := σ.channel.countP StreamEvent.final

def sent (σ : Stream) : Nat := σ.written.countP StreamEvent.final

/-- A stream holds the final event from when it is `out` until it has written it. One that
subscribed too late for it has yet to read the job, or has read it finished. -/
def Sound (out : Bool) (σ : Stream) : Prop :=
  match σ.place with
  | .seen => σ.sent = 0 ∧ σ.held = 0
  | .subscribed => σ.sent = 0 ∧ (σ.held = out.toNat ∨ σ.held = 0 ∧ σ.job = none)
  | .opening => σ.sent = 0 ∧ (σ.held = out.toNat ∨ σ.held = 0 ∧ ∃ st ∈ σ.job, st.pending = false)
  | .live => σ.sent = 0 ∧ σ.held = out.toNat
  | .ended => σ.sent = 1

theorem final_of_finalEvent (h : st.finalEvent = some e) : e.final = true := by
  cases st <;> simp_all [Status.finalEvent, StreamEvent.final] <;> subst h <;> rfl

theorem finalEvent_eq_none_iff : st.finalEvent = none ↔ st.pending = true := by
  cases st <;> simp [Status.finalEvent, Status.pending]

theorem countP_catchUp {path : StreamPath} : (catchUp path st).countP StreamEvent.final = 0 := by
  cases path <;> cases st <;> rfl

theorem finals_eq_one (h : σ.Sound true) (hopen : σ.place = .live ∨ σ.place = .ended) :
    σ.finals = 1 := by
  unfold Sound at h
  unfold finals
  rcases hopen with hp | hp
  · rw [hp] at h
    rw [if_neg (by simp [hp]), ← sent, ← held, h.1, h.2]
    rfl
  · rw [hp] at h
    rw [if_pos hp, ← sent, h]

theorem held_offer (hroom : σ.registered = true → σ.channel.length < capacity) :
    (offer e σ).held = σ.held + if σ.registered then [e].countP StreamEvent.final else 0 := by
  unfold offer held
  by_cases hr : σ.registered
  · rw [if_pos ⟨hr, hroom hr⟩, if_pos hr, List.countP_append]
  · rw [if_neg (fun h => hr h.1), if_neg hr, Nat.add_zero]

theorem held_offer_of_not_final (he : e.final = false) : (offer e σ).held = σ.held := by
  unfold offer held
  split
  · simp [he]
  · rfl

@[simp] theorem offer_place : (offer e σ).place = σ.place := by
  unfold offer
  split <;> rfl

@[simp] theorem offer_job : (offer e σ).job = σ.job := by
  unfold offer
  split <;> rfl

@[simp] theorem offer_sent : (offer e σ).sent = σ.sent := by
  unfold offer
  split <;> rfl

theorem Sound.offer_of_not_final (h : σ.Sound out) (he : e.final = false) :
    (offer e σ).Sound out := by
  unfold Sound at h ⊢
  rw [offer_place, offer_sent, offer_job, held_offer_of_not_final he]
  exact h

/-- The final publish reaches every stream whose channel the broker holds. -/
theorem Sound.offer_final (h : σ.Sound false) (he : e.final = true)
    (hroom : σ.registered = true → σ.channel.length < capacity) : (offer e σ).Sound true := by
  have hheld := held_offer (e := e) hroom
  unfold Sound at h ⊢
  rw [offer_place, offer_sent, offer_job, hheld]
  cases hp : σ.place <;> simp_all [registered] <;> omega

/-- `streamEvents` writes the final event itself, or goes on to wait for one it does not hold only
while there is one to come. -/
theorem Sound.begin (h : σ.Sound out) (hp : σ.place = .opening) (hjob : σ.job = some st)
    (hfound : out = true → result = true ∨ 0 < σ.held ∨ st.pending = true) :
    (σ.begin st result).Sound out := by
  unfold Sound at h
  rw [hp] at h
  obtain ⟨hsent, hheld⟩ := h
  have hcatch : (catchUp σ.path st).countP StreamEvent.final = 0 := countP_catchUp
  -- without a stored result the stream goes live with the channel it has
  have hlive (hnone : st.pending = true ∨ result = false) :
      ({ σ with place := .live, written := catchUp σ.path st } : Stream).Sound out := by
    refine ⟨hcatch, ?_⟩
    rcases hheld with hheld | ⟨hzero, st', hst, hfin⟩
    · exact hheld
    · cases out
      · exact hzero
      · obtain rfl : st = st' := by simpa [hjob] using hst
        rcases hnone with hn | hn <;> rcases hfound rfl with hf | hf | hf <;> simp_all
  unfold Stream.begin
  cases he : st.finalEvent with
  | none => exact hlive (Or.inl (finalEvent_eq_none_iff.mp he))
  | some e =>
    cases result
    · exact hlive (Or.inr rfl)
    · show (catchUp σ.path st ++ [e]).countP StreamEvent.final = 1
      simp [hcatch, final_of_finalEvent he]

theorem Sound.write (h : σ.Sound out) (hp : σ.place = .live) (hchannel : σ.channel = e :: rest) :
    (σ.write e rest).Sound out := by
  unfold Sound at h
  rw [hp] at h
  obtain ⟨hsent, hheld⟩ := h
  unfold sent at hsent
  rw [held, hchannel] at hheld
  unfold Stream.write Sound
  by_cases he : e.final
  · simp [he, sent, hsent]
  · simp_all [sent, held]

end Stream

namespace JobStreams

variable {s t : JobStreams} {id : Nat} {σ : Stream} {e : StreamEvent} {st : Status}

def out (s : JobStreams) : Bool := s.execution = .published

/-- What the execution has written to the row so far. -/
def Written (row : Option StreamRow) : Execution → Prop
  | .updated _ => ∀ r ∈ row, r.status.pending = false
  | .stored _ | .published => ∀ r ∈ row, r.status.pending = false ∧ r.result = true
  | .panicked => False
  | .direct | .fallenBack | .dispatched => True

structure Delivering (s : JobStreams) : Prop where
  written : Written s.row s.execution
  sound : ∀ id σ, s.streams.lookup id = some σ → σ.Sound s.out

theorem delivering_new {proxied : Bool} : Delivering (new proxied st) where
  written := by cases proxied <;> trivial
  sound id σ h := by cases h

theorem Delivering.setStream (h : Delivering s) (hσ : σ.Sound s.out) :
    Delivering (s.setStream id σ) where
  __ := h
  sound j τ hj := by
    rw [JobStreams.setStream, Assoc.lookup_insert_ite] at hj
    split at hj
    · cases hj
      exact hσ
    · exact h.sound j τ hj

theorem Delivering.dropStream (h : Delivering s) : Delivering (s.dropStream id) where
  __ := h
  sound j τ hj := by
    rw [JobStreams.dropStream, Assoc.lookup_erase_ite] at hj
    split at hj
    · cases hj
    · exact h.sound j τ hj

theorem Delivering.publish (h : Delivering s) (he : e.final = false) :
    Delivering (s.publish e) where
  __ := h
  sound j τ hj := by
    rw [JobStreams.publish, Assoc.lookup_mapVal, Option.map_eq_some_iff] at hj
    obtain ⟨σ, hσ, rfl⟩ := hj
    exact (h.sound j σ hσ).offer_of_not_final he

/-- A step that leaves the streams and the final publish as they are. -/
theorem Delivering.of_streams_eq (h : Delivering s) (hstreams : t.streams = s.streams)
    (hout : t.out = s.out) (hwritten : Written t.row t.execution) : Delivering t where
  written := hwritten
  sound j σ hj := by
    rw [hout]
    exact h.sound j σ (hstreams ▸ hj)

theorem Delivering.publishFinal (h : Delivering s) (hx : s.execution = .stored st)
    (hroom : s.Orderly (.job .publishFinal)) (he : st.finalEvent = some e) :
    Delivering { s.publish e with execution := .published } where
  written := by
    have hw := h.written
    rw [hx] at hw
    exact hw
  sound j τ hj := by
    rw [JobStreams.publish, Assoc.lookup_mapVal, Option.map_eq_some_iff] at hj
    obtain ⟨σ, hσ, rfl⟩ := hj
    have hsound := h.sound j σ hσ
    have hbefore : s.out = false := by simp [JobStreams.out, hx]
    rw [hbefore] at hsound
    exact hsound.offer_final (Stream.final_of_finalEvent he)
      (hroom ⟨j, σ⟩ (Assoc.mem_entries_iff.mpr hσ))

/-- Once the final event is out, the job is read as finished. -/
theorem Delivering.pending_of_getJob (h : Delivering s) (hout : s.out = true)
    (hget : s.getJob = some st) : st.pending = false := by
  obtain ⟨r, hr, hst⟩ := Option.bind_eq_some_iff.mp hget
  obtain ⟨-, ⟨⟩⟩ := Option.ite_none_left_eq_some.mp hst
  have hw := h.written
  rw [of_decide_eq_true hout] at hw
  exact (hw r hr).1

theorem delivering_jobStep {a : JobAct} (h : Delivering s) (hok : s.Orderly (.job a))
    (hstep : s.jobStep a = some t) : Delivering t := by
  cases a with
  | publish e =>
    obtain ⟨he, ⟨⟩⟩ := Option.ite_none_left_eq_some.mp hstep
    exact h.publish (Bool.eq_false_iff.mpr he)
  | requeue =>
    obtain ⟨hx, ⟨⟩⟩ := Option.ite_none_right_eq_some.mp hstep
    refine h.of_streams_eq rfl rfl ?_
    rw [JobStreams.updateStatus, hx]
    trivial
  | recordRetry =>
    obtain ⟨hx, ⟨⟩⟩ := Option.ite_none_right_eq_some.mp hstep
    refine h.of_streams_eq rfl rfl ?_
    rw [hx]
    trivial
  | updateStatus status =>
    obtain ⟨hx, ⟨⟩⟩ := Option.ite_none_right_eq_some.mp hstep
    refine h.of_streams_eq rfl ?_ ?_
    · rcases hx with ⟨-, hx⟩ | ⟨-, hx⟩ <;> simp [JobStreams.out, hx]
    · intro r hr
      obtain ⟨r', -, rfl⟩ := Option.map_eq_some_iff.mp hr
      rcases hx with ⟨rfl, -⟩ | ⟨hfin, -⟩
      · rfl
      · exact hfin
  | putResult =>
    simp only [jobStep] at hstep
    split at hstep
    · rename_i status hx
      cases hstep
      have hw := h.written
      rw [hx] at hw
      refine h.of_streams_eq rfl (by simp [JobStreams.out, hx]) ?_
      intro r hr
      obtain ⟨r', hr', rfl⟩ := Option.map_eq_some_iff.mp hr
      exact ⟨hw r' hr', rfl⟩
    · cases hstep
  | publishFinal =>
    simp only [jobStep] at hstep
    split at hstep
    · rename_i status hx
      obtain ⟨e, he, rfl⟩ := Option.map_eq_some_iff.mp hstep
      exact h.publishFinal hx hok he
    · cases hstep
  | panic =>
    have hx : s.execution = .published := hok
    simp only [jobStep, hx] at hstep
    cases hstep
    have hw := h.written
    rw [hx] at hw
    refine h.of_streams_eq rfl rfl ?_
    rw [JobStreams.updateStatus, hx]
    intro r hr
    obtain ⟨r', hr', rfl⟩ := Option.map_eq_some_iff.mp hr
    exact ⟨rfl, (hw r' hr').2⟩
  | expire =>
    cases hstep
    refine h.of_streams_eq rfl rfl ?_
    have hw := h.written
    cases hx : s.execution <;> simp_all [Written]
  | deleteExpired =>
    obtain ⟨-, ⟨⟩⟩ := Option.ite_none_right_eq_some.mp hstep
    refine h.of_streams_eq rfl rfl ?_
    have hw := h.written
    cases hx : s.execution <;> simp_all [Written]

theorem delivering_streamStep {a : StreamAct} (h : Delivering s) (hok : s.Orderly (.stream id a))
    (hσ : s.streams.lookup id = some σ) (hstep : s.streamStep id σ a = some t) : Delivering t := by
  have hsound := h.sound id σ hσ
  cases a with
  | subscribe =>
    obtain ⟨hp, ⟨⟩⟩ := Option.ite_none_right_eq_some.mp hstep
    have hbefore : s.out = false := decide_eq_false hok
    refine h.setStream ?_
    unfold Stream.Sound at hsound
    rw [hp] at hsound
    rw [hbefore]
    exact ⟨hsound.1, Or.inl hsound.2⟩
  | getJob =>
    obtain ⟨hp, ⟨⟩⟩ := Option.ite_none_right_eq_some.mp hstep
    split
    · rename_i status hget
      refine h.setStream ?_
      unfold Stream.Sound at hsound
      rw [hp] at hsound
      refine ⟨hsound.1, ?_⟩
      rcases hsound.2 with hheld | ⟨hzero, hjob⟩
      · exact Or.inl hheld
      · cases hout : s.out
        · exact Or.inl hzero
        · exact Or.inr ⟨hzero, status, by simp [hjob], h.pending_of_getJob hout hget⟩
    · exact h.dropStream
  | dispatch =>
    obtain ⟨⟨-, -, hx⟩, ⟨⟩⟩ := Option.ite_none_right_eq_some.mp hstep
    exact h.of_streams_eq rfl (by simp [JobStreams.out, hx]) trivial
  | streamEvents =>
    obtain ⟨⟨hp, -⟩, hstep⟩ := Option.ite_none_right_eq_some.mp hstep
    obtain ⟨status, hjob, rfl⟩ := Option.map_eq_some_iff.mp hstep
    refine h.setStream (hsound.begin hp hjob fun hout => ?_)
    rcases hok (of_decide_eq_true hout) σ hσ with hr | hr | hr
    · exact Or.inl hr
    · exact Or.inr (Or.inl hr)
    · exact Or.inr (Or.inr (hr status hjob))
  | receive =>
    simp only [streamStep] at hstep
    split at hstep
    · rename_i e rest hchannel
      obtain ⟨hp, ⟨⟩⟩ := Option.ite_none_right_eq_some.mp hstep
      exact h.setStream (hsound.write hp hchannel)
    · cases hstep
  | leave =>
    obtain ⟨-, ⟨⟩⟩ := Option.ite_none_right_eq_some.mp hstep
    exact h.dropStream

theorem delivering_request {path : StreamPath} (h : Delivering s)
    (hstep : s.request id path = some t) : Delivering t := by
  cases path with
  | get =>
    cases hstep
    exact h.setStream ⟨rfl, Or.inr ⟨rfl, rfl⟩⟩
  | fallback =>
    obtain ⟨hx, ⟨⟩⟩ := Option.ite_none_right_eq_some.mp hstep
    have hbefore : s.out = false := by simp [JobStreams.out, hx]
    have hset : Delivering (s.setStream id ⟨.fallback, .subscribed, some .queued, [], []⟩) :=
      h.setStream ⟨rfl, Or.inl (by rw [hbefore]; rfl)⟩
    exact hset.of_streams_eq rfl (by simp [JobStreams.out, JobStreams.setStream, hx]) trivial
  | duplicate =>
    obtain ⟨status, -, hstep⟩ := Option.bind_eq_some_iff.mp hstep
    obtain ⟨-, ⟨⟩⟩ := Option.ite_none_right_eq_some.mp hstep
    exact h.setStream ⟨rfl, rfl⟩

theorem delivering_step {e : Event} (h : Delivering s) (hok : s.Orderly e)
    (hstep : s.step e = some t) : Delivering t := by
  cases e with
  | job a => exact delivering_jobStep h hok hstep
  | request id path =>
    obtain ⟨-, hstep⟩ := Option.ite_none_right_eq_some.mp hstep
    exact delivering_request h hstep
  | stream id a =>
    obtain ⟨σ, hσ, hstep⟩ := Option.bind_eq_some_iff.mp hstep
    exact delivering_streamStep h hok hσ hstep

/-- In an orderly run, once the job's execution is over, every stream that has begun and whose
client is still there has written, or holds for writing, exactly one final event. -/
theorem open_stream_ends_with_final {proxied : Bool} {events : List Event}
    (hrun : Trace.exec step (new proxied st) events = some s)
    (hok : Trace.Along step Orderly (new proxied st) events) (hover : s.execution.over = true) :
    ∀ id σ, s.streams.lookup id = some σ → σ.place = .live ∨ σ.place = .ended → σ.finals = 1 := by
  intro id σ hσ hopen
  have h : Delivering s := Trace.exec_invariant delivering_step delivering_new hok hrun
  have hx : s.execution = .published := by
    have hw := h.written
    cases hx : s.execution <;> simp_all [Execution.over, Written]
  have hsound := h.sound id σ hσ
  rw [show s.out = true by simp [JobStreams.out, hx]] at hsound
  exact Stream.finals_eq_one hsound hopen

/-- `UpdateStatus`, `PutResult` and the final publish. -/
def finish (status : Status) : List Event :=
  [.job (.updateStatus status), .job .putResult, .job .publishFinal]

def openGet (id : Nat) : List Event :=
  [.request id .get, .stream id .getJob, .stream id .streamEvents]

/-- The `/proxy` request streams its own job, a duplicate joins before the final event and a third
stream is opened after it. -/
def joinedRun : List Event :=
  [.request 1 .fallback, .stream 1 .getJob, .stream 1 .dispatch, .request 2 .duplicate,
    .stream 1 .streamEvents, .job (.publish .dispatching), .stream 1 .receive,
    .stream 2 .subscribe] ++ finish .completed ++
  [.stream 2 .getJob, .stream 2 .streamEvents, .stream 1 .receive] ++ openGet 3

theorem joined_streams_end : ∃ s, Trace.exec step (new true .queued) joinedRun = some s ∧
    ∀ id σ, s.streams.lookup id = some σ → σ.place = .live ∨ σ.place = .ended → σ.finals = 1 := by
  obtain ⟨s, hrun, hover⟩ : ∃ s, Trace.exec step (new true .queued) joinedRun = some s ∧
      s.execution.over = true := by decide +kernel
  exact ⟨s, hrun, open_stream_ends_with_final hrun (by decide +kernel) hover⟩

/-- The execution is over, and the stream waits for a final event that it does not have. -/
def Stranded (s : JobStreams) (id : Nat) : Prop :=
  s.execution.over = true ∧ ∃ σ ∈ s.streams.lookup id, σ.place = .live ∧ σ.finals = 0

instance (s : JobStreams) (id : Nat) : Decidable (s.Stranded id) :=
  inferInstanceAs (Decidable (_ ∧ ∃ σ ∈ s.streams.lookup id, _))

/-- A slow reader's channel is full at the final publish; a duplicate read the job before it
finished and subscribes after; a result expires between the two reads of a stream; a panic is
handled. -/
theorem open_stream_stranded :
    (∃ s, Trace.exec step (new false .queued) (openGet 1 ++
        List.replicate 10 (.job (.publish .position)) ++ finish .completed) = some s ∧
      s.getJob = some .completed ∧ s.Stranded 1) ∧
    (∃ s, Trace.exec step (new false .queued) ([.request 1 .duplicate] ++ finish .completed ++
        [.stream 1 .subscribe, .stream 1 .getJob, .stream 1 .streamEvents]) = some s ∧
      s.getJob = some .completed ∧ s.Stranded 1) ∧
    (∃ s, Trace.exec step (new false .queued) (finish .completed ++
        [.request 1 .get, .stream 1 .getJob, .job .expire, .stream 1 .streamEvents]) = some s ∧
      s.Stranded 1) ∧
    (∃ s, Trace.exec step (new false .queued) (openGet 1 ++ [.job .panic]) = some s ∧
      s.getJob = some .failed ∧ s.Stranded 1) := by
  refine ⟨?_, ?_, ?_, ?_⟩ <;> decide +kernel

end JobStreams

end Aquifer
