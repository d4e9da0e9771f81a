import Aquifer.Dispatch.AccountQueue

/-! The health of a target, shared by its queues and by direct attempts. A failed attempt reads the
clock and then swaps the reading in if the target is up; an answer clears it; a sweep loads it. -/
namespace Aquifer

/-- What was done to `failingSince`, and when: a swap that found the target up, or an answer. -/
inductive TargetHealth.Mark
  | failing (since : Int) (clock : Time)
  | answered (clock : Time)
deriving DecidableEq

def TargetHealth.Mark.clock : TargetHealth.Mark → Time
  | .failing _ clock | .answered clock => clock

/-- `readings` are those of the calls of `failed` that have not swapped yet; `marks` has the newest
first. -/
structure TargetHealth where
  clock : Time := 0
  failingSince : Int := 0
  readings : List Time := []
  marks : List TargetHealth.Mark := []

namespace TargetHealth

inductive Event
  | tick (elapsed : Nat)
  /-- The run loop of a queue takes an attempt's report. -/
  | report (o : Outcome)
  /-- A direct attempt is over, with a status or with an error that is local or not. -/
  | direct (status : Int) (err : Option Bool)
  | swap (reading : Time)
deriving DecidableEq

/-- `ReportAnswer` of a direct attempt, as the report of a queued one. -/
def reportAnswer (status : Int) : Option Bool → Outcome
  | some isLocal => { failed := true, isLocal }
  | none => if retryableStatus status then { failed := true } else { reached := true }

/-- A failure only reads the clock here; it has still to swap. -/
def report (s : TargetHealth) (o : Outcome) : TargetHealth :=
  -- a request that could not be built says nothing about the target
  if o.failed && !o.isLocal then { s with readings := s.clock :: s.readings }
  else if o.reached then { s with failingSince := 0, marks := .answered s.clock :: s.marks }
  else s

/-- `failed`, once it has its reading. -/
def swap (s : TargetHealth) (reading : Time) : TargetHealth :=
  if s.failingSince = 0 then
    { s with
      failingSince := unixMilli reading
      marks := .failing (unixMilli reading) s.clock :: s.marks }
  else s

def step (s : TargetHealth) : Event → Option TargetHealth
  | .tick elapsed => some { s with clock := s.clock + elapsed }
  | .report o => some (s.report o)
  | .direct status err => some (s.report (reportAnswer status err))
  | .swap reading =>
    if reading ∈ s.readings then
      some { s.swap reading with readings := s.readings.erase reading }
    else none

variable {s t : TargetHealth} {e : Event}

/-- The newest mark says whether the target is up, and marks are in the order of the clock. -/
structure Sound (s : TargetHealth) : Prop where
  read : ∀ r ∈ s.readings, r ≤ s.clock
  past : ∀ m ∈ s.marks, m.clock ≤ s.clock
  order : s.marks.Pairwise fun later earlier => earlier.clock ≤ later.clock
  newest : s.failingSince ≠ 0 → ∃ clock before,
    s.marks = .failing s.failingSince clock :: before ∧ ofMilli s.failingSince ≤ clock

theorem sound_init : Sound {} where
  read _ h := nomatch h
  past _ h := nomatch h
  order := List.Pairwise.nil
  newest h := absurd rfl h

theorem sound_mark {since : Int} {m : Mark} (h : Sound s) (hm : m.clock = s.clock)
    (hnewest : since ≠ 0 → m = .failing since s.clock ∧ ofMilli since ≤ s.clock) :
    Sound { s with failingSince := since, marks := m :: s.marks } where
  __ := h
  past := List.forall_mem_cons.mpr ⟨hm.le, h.past⟩
  order := List.pairwise_cons.mpr ⟨fun m' hm' => hm ▸ h.past m' hm', h.order⟩
  newest hdown := by
    obtain ⟨rfl, hle⟩ := hnewest hdown
    exact ⟨s.clock, s.marks, rfl, hle⟩

theorem ofMilli_unixMilli_le (r : Time) : ofMilli (unixMilli r) ≤ r :=
  Int.ediv_mul_le r (by decide)

theorem sound_swap {reading : Time} (h : Sound s) (hread : reading ∈ s.readings) :
    Sound (s.swap reading) := by
  unfold swap
  split
  · have hle := (ofMilli_unixMilli_le reading).trans (h.read reading hread)
    exact sound_mark h rfl (fun _ => ⟨rfl, hle⟩)
  · exact h

theorem sound_report {o : Outcome} (h : Sound s) : Sound (s.report o) := by
  unfold report
  split
  · exact { h with read := List.forall_mem_cons.mpr ⟨le_rfl, h.read⟩ }
  split
  · exact sound_mark h rfl (fun hdown => absurd rfl hdown)
  · exact h

theorem sound_step (h : Sound s) (hstep : s.step e = some t) : Sound t := by
  cases e with
  | tick elapsed =>
    cases hstep
    have hlater : s.clock ≤ s.clock + elapsed :=
      Int.le_add_of_nonneg_right (Int.natCast_nonneg elapsed)
    exact { h with
      read := fun r hr => (h.read r hr).trans hlater
      past := fun m hm => (h.past m hm).trans hlater }
  | report o | direct status err =>
    cases hstep
    exact sound_report h
  | swap reading =>
    obtain ⟨hread, ⟨⟩⟩ := Option.ite_none_right_eq_some.mp hstep
    have hswap := sound_swap h hread
    have hreadings : (s.swap reading).readings = s.readings := by
      unfold swap
      split <;> rfl
    exact { hswap with read := fun r hr => hswap.read r (hreadings ▸ List.mem_of_mem_erase hr) }

theorem sound_of_run {events : List Event} (h : Trace.exec step {} events = some s) : Sound s :=
  Trace.exec_always sound_step sound_init h

end TargetHealth

namespace AccountQueue

variable {q : AccountQueue} {cutoff : Int} {reason : String} {now : Time}

/-- A scan that drops the entries `out` picks and leaves what `other` reads alone. -/
theorem scan_kept {α β : Type} {f : AccountQueue → α → AccountQueue}
    (kept : AccountQueue → List α) (other : AccountQueue → β) (out : α → Bool)
    (hf : ∀ q x, kept (f q x) = (if out x then kept q else kept q ++ [x]) ∧ other (f q x) = other q)
    (xs : List α) : kept (xs.foldl f q) = kept q ++ xs.filter (fun x => !out x) ∧
      other (xs.foldl f q) = other q := by
  induction xs generalizing q with
  | nil => simp
  | cons x xs ih =>
    obtain ⟨hkept, hother⟩ := hf q x
    obtain ⟨hkepts, hothers⟩ := ih (q := f q x)
    refine ⟨?_, hothers.trans hother⟩
    rw [List.foldl_cons, hkepts, hkept]
    cases hout : out x <;> simp [hout]

theorem failDeadQueue_kept : (q.failDeadQueue cutoff reason now).queue =
      q.queue.filter (fun job => !waitedOut job cutoff) ∧
    (q.failDeadQueue cutoff reason now).waiting = q.waiting := by
  refine scan_kept queue waiting (waitedOut · cutoff) (fun q job => ?_) q.queue
  split <;> exact ⟨rfl, rfl⟩

theorem failDeadWaiting_kept : (q.failDeadWaiting cutoff reason now).waiting =
      q.waiting.filter (fun w => !waitedOut w.job cutoff) ∧
    (q.failDeadWaiting cutoff reason now).queue = q.queue := by
  refine scan_kept waiting queue (waitedOut ·.job cutoff) (fun q w => ?_) q.waiting
  split <;> exact ⟨rfl, rfl⟩

theorem waited_of_waitedOut {job : Job} {limit : Int}
    (h : waitedOut job (unixMilli (now - limit)) = true) : ofMilli job.createdAt ≤ now - limit := by
  simp only [waitedOut, Bool.and_eq_true, decide_eq_true_eq] at h
  have hle : ofMilli job.createdAt ≤ ofMilli (unixMilli (now - limit)) :=
    Int.mul_le_mul_of_nonneg_right h.2 (by decide)
  exact hle.trans (TargetHealth.ofMilli_unixMilli_le _)

/-- What a sweep does, when the limit is set and the target has failed for as long. -/
theorem failDeadTarget_cases (c : QueueConfig) (q : AccountQueue) (now : Time) :
    q.failDeadTarget c now = q ∨
      0 < c.deadAfter ∧ q.failingSince ≠ 0 ∧ c.deadAfter ≤ now - ofMilli q.failingSince ∧
        (q.failDeadTarget c now).queue =
          q.queue.filter (fun job => !waitedOut job (unixMilli (now - c.deadAfter))) ∧
        (q.failDeadTarget c now).waiting =
          q.waiting.filter (fun w => !waitedOut w.job (unixMilli (now - c.deadAfter))) := by
  unfold failDeadTarget
  split
  · exact .inl rfl
  next hsweep =>
    obtain ⟨hlimit, hlong, -⟩ := not_or.mp hsweep |>.imp id not_or.mp
    have hpos : 0 < c.deadAfter := not_le.mp hlimit
    have hlong : c.deadAfter ≤ q.failingFor now := not_lt.mp hlong
    have hdown : q.failingSince ≠ 0 := by
      intro hup
      rw [failingFor, if_pos hup] at hlong
      exact absurd hpos (not_lt.mpr hlong)
    rw [failingFor, if_neg hdown] at hlong
    refine .inr ⟨hpos, hdown, hlong, ?_, ?_⟩
    · exact failDeadWaiting_kept.2.trans failDeadQueue_kept.1
    · rw [failDeadWaiting_kept.1, failDeadQueue_kept.2]

/-- However reports of attempts, queued and direct, interleave with their swaps: a sweep leaves the
queue alone, or the target is marked as failing for the limit or longer and has not answered since.
The sweep then takes the jobs as old as the limit from the queue and from the waiting jobs, and
keeps the others in order. -/
theorem dead_target_spares_young_jobs {events : List TargetHealth.Event} {s : TargetHealth}
    (hrun : Trace.exec TargetHealth.step {} events = some s) (c : QueueConfig) (q : AccountQueue)
    (hload : q.failingSince = s.failingSince) (now : Time) :
    q.failDeadTarget c now = q ∨
      (∃ swapped before, s.marks = .failing s.failingSince swapped :: before ∧
        ofMilli s.failingSince ≤ swapped ∧ ∀ a, .answered a ∈ s.marks → a ≤ swapped) ∧
      0 < c.deadAfter ∧ c.deadAfter ≤ now - ofMilli s.failingSince ∧
      (q.failDeadTarget c now).queue =
        q.queue.filter (fun job => !waitedOut job (unixMilli (now - c.deadAfter))) ∧
      (q.failDeadTarget c now).waiting =
        q.waiting.filter (fun w => !waitedOut w.job (unixMilli (now - c.deadAfter))) ∧
      ∀ job, waitedOut job (unixMilli (now - c.deadAfter)) = true →
        ofMilli job.createdAt ≤ now - c.deadAfter := by
  obtain hsame | ⟨hpos, hdown, hlong, hqueue, hwaiting⟩ := failDeadTarget_cases c q now
  · exact .inl hsame
  rw [hload] at hdown hlong
  have hsound := TargetHealth.sound_of_run hrun
  obtain ⟨swapped, before, hmarks, hle⟩ := hsound.newest hdown
  refine .inr ⟨⟨swapped, before, hmarks, hle, fun a ha => ?_⟩, hpos, hlong, hqueue, hwaiting,
    fun job => waited_of_waitedOut⟩
  -- the answer is one of the marks before the newest
  rw [hmarks] at ha
  have horder := hsound.order
  rw [hmarks] at horder
  exact List.rel_of_pairwise_cons horder ((List.mem_cons.mp ha).resolve_left (nomatch ·))

/-- A failure that read the clock before an answer and swapped after it. -/
def lateSwap : List TargetHealth.Event :=
  [.tick 5000000, .report { failed := true }, .tick 1000000, .direct 200 none, .tick 1000000,
    .swap 5000000]

def deadConfig : QueueConfig := { smallConfig with deadAfter := 2000000000 }

/-- Jobs of two seconds and of a millisecond less, when the sweep is at four seconds. -/
def deadQueue : AccountQueue :=
  { new deadConfig Table.empty with failingSince := 5, queue := [smallJob 2000, smallJob 2001] }

theorem lateSwap_spares_young : ∃ s, Trace.exec TargetHealth.step {} lateSwap = some s ∧
    (deadQueue.failDeadTarget deadConfig 4000000000).queue = [smallJob 2001] ∧
    ∃ swapped before, s.marks = .failing 5 swapped :: before ∧
      ofMilli 5 ≤ swapped ∧ ∀ a, .answered a ∈ s.marks → a ≤ swapped := by
  have hqueue : (deadQueue.failDeadTarget deadConfig 4000000000).queue = [smallJob 2001] := by rfl
  obtain ⟨s, hrun, hsince⟩ : ∃ s, Trace.exec TargetHealth.step {} lateSwap = some s ∧
      s.failingSince = 5 := ⟨_, rfl, rfl⟩
  refine ⟨s, hrun, hqueue, ?_⟩
  obtain hsame | ⟨hfailing, -⟩ :=
    dead_target_spares_young_jobs hrun deadConfig deadQueue hsince.symm 4000000000
  · rw [hsame] at hqueue
    exact absurd hqueue (by decide)
  · exact hsince ▸ hfailing

end AccountQueue

end Aquifer
