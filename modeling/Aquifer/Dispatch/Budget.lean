import Mathlib.Data.Rat.Defs
import Mathlib.Algebra.Order.Field.Rat
import Mathlib.Tactic.Linarith
import Aquifer.Lib.Assoc
import Aquifer.Lib.Trace
import Aquifer.Dispatch.Routing

/-! A worker's backlog budget: fair admission to its queues, and signals that change the budget. -/
namespace Aquifer

/-- `admission.QueueSnapshot`, which counts the request being evaluated. -/
structure QueueSnapshot where
  activeQueues : Nat
  upstreamBacklog : Nat
  queueBacklog : Nat
  maxBacklog : Int
  admissionPressure : ℚ := 0
  rejectionProbability : ℚ := 0
deriving DecidableEq, Repr

structure FairDecision where
  allowed : Bool
  reason : String := ""
  snapshot : QueueSnapshot
deriving DecidableEq, Repr

namespace Admission

def fairStart : ℚ := 7 / 10

def fairCeiling : ℚ := 5 / 4

def clamp (value low high : ℚ) : ℚ := max low (min value high)

/-- `math.Nextafter(1, 0)`. -/
def belowOne : ℚ := 1 - 1 / 2 ^ 53

/-- `DecideFairWithFloor`, given the queues it counts as active, at least one. -/
def decideFair (queuePending totalPending activeQueues : Nat) (maxBacklog : Int)
    (ceilingFloor : Nat) (draw : ℚ) : FairDecision :=
  let projectedQueue := queuePending + 1
  let projectedTotal := totalPending + 1
  let snapshot : QueueSnapshot :=
    { activeQueues, upstreamBacklog := projectedTotal, queueBacklog := projectedQueue, maxBacklog }
  if maxBacklog ≤ 0 then { allowed := true, snapshot }
  else
    let fairShare : ℚ := maxBacklog / activeQueues
    if maxBacklog < projectedTotal then
      let snapshot := { snapshot with admissionPressure := 1 }
      if 1 < activeQueues ∧ (projectedQueue : ℚ) ≤ fairShare ∧
          (projectedTotal : ℚ) ≤ fairCeiling * max maxBacklog ceilingFloor then
        { allowed := true, snapshot }
      else
        { allowed := false, reason := "upstream_queue",
          snapshot := { snapshot with rejectionProbability := 1 } }
    else if activeQueues = 1 then { allowed := true, snapshot }
    else
      let start := fairStart * maxBacklog
      let pressure := clamp ((projectedTotal - start) / (maxBacklog - start)) 0 1
      let excess := clamp ((projectedQueue - fairShare) / fairShare) 0 1
      let probability := pressure * excess
      let snapshot :=
        { snapshot with admissionPressure := pressure, rejectionProbability := probability }
      if 0 < probability ∧ clamp draw 0 belowOne < probability then
        { allowed := false, reason := "queue_fair_share", snapshot }
      else { allowed := true, snapshot }

def decideFairWithFloor (queuePending totalPending activeQueues : Nat) (maxBacklog : Int)
    (ceilingFloor : Nat) (draw : ℚ) : FairDecision :=
  decideFair queuePending totalPending (max activeQueues 1) maxBacklog ceilingFloor draw

/-- Past the budget a queue within its fair share enters as long as the backlog stays within the
ceiling. -/
theorem allowed_past_budget {queuePending totalPending activeQueues ceilingFloor : Nat}
    {maxBacklog : Int} {draw : ℚ} (hpast : maxBacklog < totalPending + 1) (hmany : 1 < activeQueues)
    (hshare : ((queuePending + 1 : Nat) : ℚ) ≤ maxBacklog / activeQueues)
    (hroom : ((totalPending + 1 : Nat) : ℚ) ≤ fairCeiling * max maxBacklog ceilingFloor) :
    (decideFairWithFloor queuePending totalPending activeQueues maxBacklog ceilingFloor
      draw).allowed =
      true := by
  rw [decideFairWithFloor, Nat.max_eq_left hmany.le, decideFair]
  dsimp only
  split
  · rfl
  · rw [if_pos (by exact_mod_cast hpast), if_pos ⟨hmany, hshare, hroom⟩]

end Admission

/-- What admission reads of a worker: its mode, its queues with their backlogs, its own count of the
backlog, and the budget with the floor a shrink leaves. A release takes a job off its queue's
count first and off the worker's count after that; `releasing` counts those in between. -/
structure Budget where
  accountQueueMode : Bool := true
  queues : Assoc String Nat := ∅
  backlog : Nat := 0
  releasing : Nat := 0
  maxBacklog : Int
  shrinkFloor : Nat := 0

inductive Budget.Event
  | signal (v : Int)
  | submit (key : String) (draw : ℚ)
  | enqueue (key : String)
  | attach (key : String) (n : Nat)
  | release (key : String)
  | settle
  | retire (key : String)
  | mode (on : Bool)
deriving DecidableEq

namespace Budget

variable {s t : Budget} {e : Event} {es : List Event} {v : Int}

def setMaxBacklog (s : Budget) (v : Int) : Budget :=
  let shrinkFloor :=
    if v < s.maxBacklog ∧ v < s.backlog then s.backlog
    else if s.maxBacklog < v then
      if 0 < s.shrinkFloor ∧ v < s.backlog then min s.shrinkFloor s.backlog else 0
    else s.shrinkFloor
  { s with maxBacklog := v, shrinkFloor }

/-- The queue a job of this tenant goes to. -/
def queueKey (s : Budget) (key : String) : String :=
  if s.accountQueueMode then key else sharedQueueKey

def pending (s : Budget) (key : String) : Nat := (s.queues.lookup key).getD 0

def totalPending (s : Budget) : Nat := (s.queues.entries.map fun e => e.2).sum

/-- The queues with a backlog, counting the one that is being submitted to. -/
def activeQueues (s : Budget) (key : String) : Nat :=
  (s.queues.entries.filter fun e => 0 < e.2).length + if s.pending key = 0 then 1 else 0

/-- `reserve` clears a floor once the backlog has drained to the budget. -/
def drained (s : Budget) : Budget :=
  if 0 < s.shrinkFloor ∧ (s.totalPending : Int) ≤ s.maxBacklog then
    { s with shrinkFloor := 0 }
  else s

def fairDecision (s : Budget) (key : String) (draw : ℚ) : FairDecision :=
  let queuePending := if s.accountQueueMode then s.pending (s.queueKey key) else s.totalPending
  let active := if s.accountQueueMode then s.activeQueues (s.queueKey key) else 1
  Admission.decideFairWithFloor queuePending s.totalPending active s.maxBacklog
    s.drained.shrinkFloor draw

theorem allowed_of_no_queues {key : String} {draw : ℚ} (h : s.queues = ∅) :
    (s.fairDecision key draw).allowed = true := by
  have htotal : s.totalPending = 0 := by simp [totalPending, h]
  have hpending : ∀ k, s.pending k = 0 := by simp [pending, h]
  have hactive : ∀ k, s.activeQueues k = 1 := by simp [activeQueues, h, hpending]
  simp only [fairDecision, htotal, hpending, hactive, ite_self, Admission.decideFairWithFloor,
    Nat.max_self, Admission.decideFair, if_true]
  split
  · rfl
  · rw [if_neg (by omega)]

/-- `reserveBacklog`, `n` times, on a queue that is opened if there is none. -/
def reserveBacklog (s : Budget) (key : String) (n : Nat) : Budget :=
  { s with queues := s.queues.insert key (s.pending key + n), backlog := s.backlog + n }

def reserve (s : Budget) (key : String) (draw : ℚ) : Budget × FairDecision :=
  let decision := s.fairDecision key draw
  if decision.allowed then (s.drained.reserveBacklog (s.queueKey key) 1, decision)
  else (s.drained, decision)

def step (s : Budget) : Event → Option Budget
  | .signal v => some (s.setMaxBacklog v)
  | .submit key draw => some (s.reserve key draw).1
  | .enqueue key => some (s.reserveBacklog (s.queueKey key) 1)
  | .attach key n => if key ∈ s.queues then some (s.reserveBacklog key n) else none
  | .release key =>
    if 0 < s.pending key then
      some { s with
        queues := s.queues.insert key (s.pending key - 1)
        releasing := s.releasing + 1 }
    else none
  | .settle =>
    if 0 < s.releasing then
      some { s with backlog := s.backlog - 1, releasing := s.releasing - 1 }
    else none
  | .retire key =>
    if s.pending key = 0 then some { s with queues := s.queues.erase key } else none
  | .mode on => some { s with accountQueueMode := on }

/-- No signal, and the backlog has not drained to the budget `v`. -/
def Above (v : Int) (s : Budget) (e : Event) : Prop := (∀ w, e ≠ .signal w) ∧ v < s.totalPending

instance : Decidable (Above v s e) :=
  decidable_of_iff ((match e with | .signal _ => false | _ => true) = true ∧ v < s.totalPending)
    (by cases e <;> simp [Above])

theorem drained_eq (h : s.maxBacklog < s.totalPending) : s.drained = s := by
  rw [drained, if_neg]
  rintro ⟨-, hle⟩
  omega

/-- Between two signals the budget stays, and so does the floor while the backlog is above it. -/
theorem floor_step {f : Nat} (hs : s.maxBacklog = v ∧ s.shrinkFloor = f) (hok : Above v s e)
    (h : step s e = some t) : t.maxBacklog = v ∧ t.shrinkFloor = f := by
  have hdrained : s.drained = s := drained_eq (hs.1 ▸ hok.2)
  cases e with
  | signal w => exact absurd rfl (hok.1 w)
  | submit key draw =>
    simp only [step, reserve, hdrained] at h
    split at h <;> cases h <;> exact hs
  | enqueue | mode =>
    cases h
    exact hs
  | attach | release | settle | retire =>
    obtain ⟨-, ⟨⟩⟩ := Option.ite_none_right_eq_some.mp h
    exact hs

/-- A shrink below the backlog leaves a floor no lower than the backlog, unless the budget was
unlimited and no earlier floor reaches it. -/
theorem setMaxBacklog_floor (hset : 0 < s.maxBacklog ∨ s.backlog ≤ s.shrinkFloor)
    (hwithin : s.maxBacklog ≤ 0 ∨ (s.backlog : Int) ≤ s.maxBacklog) (hpos : 0 < v)
    (hbelow : v < s.backlog) : (s.setMaxBacklog v).shrinkFloor = s.backlog := by
  simp only [setMaxBacklog]
  by_cases hold : 0 < s.maxBacklog
  · rw [if_pos (by omega)]
  · have hfloor : s.backlog ≤ s.shrinkFloor := by omega
    rw [if_neg (by omega), if_pos (by omega), if_pos (by omega), Nat.min_eq_right hfloor]

/-- After a signal takes the budget below the backlog held, a submission of a queue within its fair
share is admitted until the backlog has drained to the new budget, up to a quarter more than what
was held, provided the budget was a positive one or an earlier floor covers the backlog. -/
theorem shrink_admits_small_queues
    (hset : 0 < s.maxBacklog ∨ s.backlog ≤ s.shrinkFloor)
    (hwithin : s.maxBacklog ≤ 0 ∨ (s.backlog : Int) ≤ s.maxBacklog) (hpos : 0 < v)
    (hbelow : v < s.backlog)
    (hrun : Trace.exec step s (.signal v :: es) = some t)
    (habove : Trace.Along step (Above v) (s.setMaxBacklog v) es) (hheld : v < t.totalPending)
    (hmode : t.accountQueueMode = true) (key : String) (draw : ℚ)
    (hmany : 2 ≤ t.activeQueues key)
    (hshare : ((t.pending key + 1 : Nat) : ℚ) ≤ v / t.activeQueues key)
    (hroom : ((t.totalPending + 1 : Nat) : ℚ) ≤ 5 / 4 * s.backlog) :
    (t.reserve key draw).2.allowed = true := by
  obtain ⟨u, hu, hrest⟩ := Trace.exec_cons.mp hrun
  cases hu
  obtain ⟨hmax, hfloor⟩ : t.maxBacklog = v ∧ t.shrinkFloor = s.backlog := by
    refine Trace.exec_invariant floor_step ?_ habove hrest
    exact ⟨rfl, setMaxBacklog_floor hset hwithin hpos hbelow⟩
  have hallowed : (t.fairDecision key draw).allowed = true := by
    rw [fairDecision, drained_eq (hmax ▸ hheld)]
    simp only [hmode, if_true, queueKey, hmax, hfloor]
    refine Admission.allowed_past_budget (by omega) (by omega) hshare (hroom.trans ?_)
    have hle : (s.backlog : ℚ) ≤ (max v s.backlog : Int) := by
      exact_mod_cast le_max_right v (s.backlog : Int)
    rw [Admission.fairCeiling]
    linarith
  rw [reserve, if_pos hallowed]
  exact hallowed

/-- A worker with a budget of 4 holds 4 jobs of one tenant when the budget shrinks to 2. Another
tenant's job comes and goes, and so does one of the first's, before the next is submitted. -/
def afterShrink : List Event :=
  [.submit "b" 0, .release "b", .settle, .release "a"]

theorem shrink_from_limit_admits :
    ∃ s, Trace.exec step { maxBacklog := 4 } (List.replicate 4 (.submit "a" 0)) = some s ∧
      s.maxBacklog = 4 ∧ s.backlog = 4 ∧ ∃ t, Trace.exec step s (.signal 2 :: afterShrink) =
        some t ∧
        t.totalPending = 3 ∧ (t.reserve "b" 0).2.allowed = true := by
  have hrun : ∃ s, Trace.exec step { maxBacklog := 4 } (List.replicate 4 (.submit "a" 0)) = some s ∧
      s.maxBacklog = 4 ∧ s.backlog = 4 ∧
      Trace.Along step (Above 2) (s.setMaxBacklog 2) afterShrink ∧
      ∃ t, Trace.exec step s (.signal 2 :: afterShrink) = some t ∧ t.totalPending = 3 ∧
        t.accountQueueMode = true ∧ t.activeQueues "b" = 2 ∧ t.pending "b" = 0 := by decide +kernel
  obtain ⟨s, hfill, hmax, hheld, habove, t, hshrink, htotal, hmode, hactive, hpending⟩ := hrun
  refine ⟨s, hfill, hmax, hheld, t, hshrink, htotal, ?_⟩
  refine shrink_admits_small_queues (.inl (by omega)) (.inr (by omega)) (by decide)
    (by omega) hshrink habove (by omega) hmode "b" 0 (by omega) ?_ ?_
  · rw [hpending, hactive]
    norm_num
  · rw [htotal, hheld]
    norm_num

/-- With an unlimited budget the same signal leaves no floor, and the small tenant is refused. -/
theorem shrink_from_unlimited_refuses :
    ∃ s, Trace.exec step { maxBacklog := 0 } (List.replicate 4 (.submit "a" 0)) = some s ∧
      s.maxBacklog = 0 ∧ s.backlog = 4 ∧ ∃ t, Trace.exec step s [.signal 2] = some t ∧
        2 < t.totalPending ∧ t.accountQueueMode = true ∧ t.activeQueues "b" = 2 ∧
        ((t.pending "b" + 1 : Nat) : ℚ) ≤ 2 / t.activeQueues "b" ∧
        ((t.totalPending + 1 : Nat) : ℚ) ≤ 5 / 4 * s.backlog ∧
        (t.reserve "b" 0).2.allowed = false ∧ (t.reserve "b" 0).2.reason = "upstream_queue" := by
  decide +kernel

end Budget

end Aquifer
