import Mathlib.Data.List.Nodup
import Mathlib.Logic.Function.Basic
import Aquifer.Lib.Trace
import Aquifer.Jobs

/-! The scheduler of upstream connections: admissions wait in arrival order for one of a bounded
number of slots, and one goroutine grants them. A step is one section under the scheduler's lock,
one channel operation, or the `notify` a section is followed by. -/
namespace Aquifer.Websocket

/-- Where the goroutine is that an admission was returned to: it has called neither `Wait` nor
`Cancel`; a position callback runs, in `Wait`; `Wait` is in its select; a callback has failed and
`Wait` calls `Cancel`; `Wait` has returned a release function, which has run or not; it has
returned without one, or `Cancel` has. -/
inductive Caller
  | admitted
  | calling
  | waiting
  | cancelling
  | holding
  | released
  | over
deriving DecidableEq, Repr

/-- The admission has not been ended. -/
def Caller.pending : Caller → Bool
  | .admitted | .calling | .waiting | .cancelling => true
  | .holding | .released | .over => false

theorem Caller.ne_released {caller : Caller} (h : caller.pending = true) : caller ≠ .released := by
  rintro rfl
  cases h

/-- A `websocketWaiter` with the state of its caller; `ready` says that the channel is closed,
`failed` that the error is set, and `last` is the caller's `lastPosition`. -/
structure Waiter where
  position : Nat := 0
  positions : Option Nat := none
  ready : Bool := false
  granted : Bool := false
  canceled : Bool := false
  failed : Bool := false
  caller : Caller := .over
  last : Nat := 0
deriving DecidableEq, Repr

/-- One round of `publishPositionsLocked`: the channel of one element is emptied, then filled. -/
def Waiter.moveTo (w : Waiter) (position : Nat) : Waiter :=
  if w.position = position then w else { w with position, positions := some position }

/-- The goroutine of `run`: about to call `grantReady`; in a select, with a timer or without one;
about to call `failWaiters`; returned. -/
inductive RunLoop
  | looking
  | parked (timer : Bool)
  | stopping
  | done
deriving DecidableEq, Repr

structure SchedulerConfig where
  maxUpstreams : Int
  maxWaiting : Int

/-- Waiters are named by their arrival, so `waiters` lists numbers below `arrived`. `notifying` are
the operations that have released the lock and not yet called `notify`. `grants` and `returns`
record the slots granted and given back, in order; nothing reads them. -/
structure Scheduler where
  maxUpstreams : Int
  maxWaiting : Int
  advertisedMax : Int := 0
  activeUpstreams : Int := 0
  waiters : List Nat := []
  nextGrant : Time := 0
  wake : Bool := false
  stop : Bool := false
  closed : Bool := false
  waiter : Nat → Waiter := fun _ => {}
  arrived : Nat := 0
  notifying : Nat := 0
  loop : RunLoop := .looking
  grants : List Nat := []
  returns : List Nat := []

namespace Scheduler

inductive CallerAct
  | wait
  | onPosition (ok : Bool)
  | ready
  | positions
  | contextDone
  | cancel
  | release
deriving DecidableEq, Repr

/-- `next` is the time `nextGrant` is set to after a grant and `earliest` the one a failure delays
it to: the rates and the jitter these come from are left open. -/
inductive Event
  | enqueueUpstream
  | caller (id : Nat) (a : CallerAct)
  | updateCapacity (maxConnections : Option Int)
  | reportSuccess
  | reportFailure (earliest : Time)
  | notify
  | close
  | closeReturns
  | grantReady (now next : Time)
  | wake
  | timer
  | stop
  | failWaiters
deriving DecidableEq, Repr

def new (cfg : SchedulerConfig) : Scheduler where
  maxUpstreams := if cfg.maxUpstreams ≤ 0 then 1000 else cfg.maxUpstreams
  maxWaiting := if cfg.maxWaiting ≤ 0 then 1000 else cfg.maxWaiting

def effectiveMax (s : Scheduler) : Int :=
  if 0 < s.advertisedMax ∧ s.advertisedMax < s.maxUpstreams then s.advertisedMax else s.maxUpstreams

/-- `publishPositionsLocked` from an index on. -/
def publishPositions (waiter : Nat → Waiter) : List Nat → Nat → Nat → Waiter
  | [], _ => waiter
  | id :: rest, i =>
    publishPositions (Function.update waiter id ((waiter id).moveTo (i + 1))) rest (i + 1)

def setWaiter (s : Scheduler) (id : Nat) (w : Waiter) : Scheduler :=
  { s with waiter := Function.update s.waiter id w }

def setCaller (s : Scheduler) (id : Nat) (caller : Caller) : Scheduler :=
  s.setWaiter id { s.waiter id with caller }

def enqueueUpstream (s : Scheduler) : Scheduler :=
  if s.stop ∨ s.maxWaiting ≤ s.waiters.length then s
  else
    { s.setWaiter s.arrived
        { position := s.waiters.length + 1, caller := .admitted, last := s.waiters.length + 1 } with
      waiters := s.waiters ++ [s.arrived]
      arrived := s.arrived + 1
      wake := true }

/-- A granted slot is given back before `Wait` has returned it. -/
def giveBack (s : Scheduler) (id : Nat) : Scheduler :=
  { s.setWaiter id { s.waiter id with granted := false, caller := .over } with
    activeUpstreams := s.activeUpstreams - 1
    returns := s.returns ++ [id]
    notifying := s.notifying + 1 }

/-- A waiter that has no slot leaves the queue. -/
def withdraw (s : Scheduler) (id : Nat) : Scheduler :=
  let waiters := s.waiters.erase id
  { s with
    waiters
    waiter := publishPositions
      (Function.update s.waiter id { s.waiter id with canceled := true, caller := .over }) waiters 0
    notifying := s.notifying + 1 }

def contextDone (s : Scheduler) (id : Nat) : Scheduler :=
  if (s.waiter id).granted then s.giveBack id else s.withdraw id

def cancel (s : Scheduler) (id : Nat) : Scheduler :=
  if (s.waiter id).granted then s.giveBack id
  else if (s.waiter id).canceled then { s.setCaller id .over with notifying := s.notifying + 1 }
  else s.withdraw id

/-- The function `releaseFunc` returns, the first time it is called. -/
def release (s : Scheduler) (id : Nat) : Scheduler :=
  { s.setCaller id .released with
    activeUpstreams := if 0 < s.activeUpstreams then s.activeUpstreams - 1 else s.activeUpstreams
    returns := s.returns ++ [id]
    notifying := s.notifying + 1 }

/-- The first loop of `grantReady`. -/
def dropCanceled (s : Scheduler) : List Nat → Scheduler
  | [] => { s with waiters := [] }
  | id :: rest =>
    if (s.waiter id).canceled then
      dropCanceled { s with waiter := publishPositions s.waiter rest 0 } rest
    else { s with waiters := id :: rest }

def grant (s : Scheduler) (id : Nat) (rest : List Nat) (next : Time) : Scheduler :=
  let waiter := publishPositions s.waiter rest 0
  { s with
    waiters := rest
    waiter := Function.update waiter id { waiter id with granted := true, ready := true }
    activeUpstreams := s.activeUpstreams + 1
    nextGrant := next
    grants := s.grants ++ [id]
    loop := if rest = [] then .parked false else .looking }

def grantReady (s : Scheduler) (now next : Time) : Scheduler :=
  let s := s.dropCanceled s.waiters
  match s.waiters with
  | [] => { s with loop := .parked false }
  | id :: rest =>
    if s.effectiveMax ≤ s.activeUpstreams then { s with loop := .parked false }
    else if now < s.nextGrant then { s with loop := .parked true }
    else s.grant id rest next

def failWaiters (s : Scheduler) : Scheduler :=
  { s with
    waiters := []
    waiter := fun id =>
      if id ∈ s.waiters then { s.waiter id with failed := true, ready := true } else s.waiter id
    loop := .done }

def callerStep (s : Scheduler) (id : Nat) : CallerAct → Option Scheduler
  | .wait => if (s.waiter id).caller = .admitted then some (s.setCaller id .calling) else none
  | .onPosition ok =>
    if (s.waiter id).caller = .calling then
      some (s.setCaller id (if ok then .waiting else .cancelling))
    else none
  | .ready =>
    if (s.waiter id).caller = .waiting ∧ (s.waiter id).ready then
      some (s.setCaller id (if (s.waiter id).failed then .over else .holding))
    else none
  -- a position the callback has already been called with is passed over
  | .positions =>
    match (s.waiter id).positions with
    | some position =>
      if (s.waiter id).caller = .waiting then
        some (s.setWaiter id { s.waiter id with
          positions := none
          last := position
          caller := if position = (s.waiter id).last then .waiting else .calling })
      else none
    | none => none
  | .contextDone => if (s.waiter id).caller = .waiting then some (s.contextDone id) else none
  | .cancel =>
    if (s.waiter id).caller = .admitted ∨ (s.waiter id).caller = .cancelling then
      some (s.cancel id)
    else none
  | .release =>
    match (s.waiter id).caller with
    | .holding => some (s.release id)
    | .released => some s
    | _ => none

def step (s : Scheduler) : Event → Option Scheduler
  | .enqueueUpstream => some s.enqueueUpstream
  | .caller id a => s.callerStep id a
  | .updateCapacity maxConnections =>
    some { s with
      advertisedMax := match maxConnections with
        | some n => if 0 < n then n else s.advertisedMax
        | none => s.advertisedMax
      notifying := s.notifying + 1 }
  | .reportSuccess => some { s with notifying := s.notifying + 1 }
  | .reportFailure earliest =>
    some { s with
      nextGrant := if s.waiters = [] then s.nextGrant else max s.nextGrant earliest
      notifying := s.notifying + 1 }
  | .notify =>
    if 0 < s.notifying then some { s with wake := true, notifying := s.notifying - 1 } else none
  | .close =>
    if s.stop then none else some { s with stop := true, notifying := s.notifying + 1 }
  | .closeReturns => if s.loop = .done then some { s with closed := true } else none
  | .grantReady now next => if s.loop = .looking then some (s.grantReady now next) else none
  | .wake =>
    match s.loop with
    | .parked _ => if s.wake then some { s with wake := false, loop := .looking } else none
    | _ => none
  | .timer => if s.loop = .parked true then some { s with loop := .looking } else none
  | .stop =>
    match s.loop with
    | .parked _ => if s.stop then some { s with loop := .stopping } else none
    | _ => none
  | .failWaiters => if s.loop = .stopping then some s.failWaiters else none

/-- A waiter could be granted a slot, now or when the rate allows it. -/
def Grantable (s : Scheduler) : Prop := s.waiters ≠ [] ∧ s.activeUpstreams < s.effectiveMax

variable {s t : Scheduler} {id : Nat} {w : Waiter}

/-! ### Positions -/

theorem position_moveTo {n : Nat} : (w.moveTo n).position = n := by
  unfold Waiter.moveTo
  split
  · assumption
  · rfl

theorem moveTo_eq {n : Nat} : ∃ p, w.moveTo n = { w with position := n, positions := p } := by
  unfold Waiter.moveTo
  split
  · next h => exact ⟨w.positions, by rw [← h]⟩
  · exact ⟨_, rfl⟩

section Publish

variable (f : Nat → Waiter) (ids : List Nat) (i id : Nat)

/-- Nothing but its position changes in a waiter. -/
theorem publishPositions_eq :
    ∃ n p, publishPositions f ids i id = { f id with position := n, positions := p } := by
  induction ids generalizing f i with
  | nil => exact ⟨(f id).position, (f id).positions, rfl⟩
  | cons a rest ih =>
    obtain ⟨n, p, h⟩ := ih (Function.update f a ((f a).moveTo (i + 1))) (i + 1)
    refine ⟨n, p, h.trans ?_⟩
    by_cases ha : id = a
    · subst ha
      obtain ⟨q, hq⟩ := @moveTo_eq (f id) (i + 1)
      rw [Function.update_self, hq]
    · rw [Function.update_of_ne ha]

@[simp] theorem granted_publish : (publishPositions f ids i id).granted = (f id).granted := by
  obtain ⟨n, p, h⟩ := publishPositions_eq f ids i id
  rw [h]

@[simp] theorem canceled_publish : (publishPositions f ids i id).canceled = (f id).canceled := by
  obtain ⟨n, p, h⟩ := publishPositions_eq f ids i id
  rw [h]

variable {f ids i id}

theorem publishPositions_of_notMem (h : id ∉ ids) : publishPositions f ids i id = f id := by
  induction ids generalizing f i with
  | nil => rfl
  | cons a rest ih =>
    rw [List.mem_cons, not_or] at h
    rw [publishPositions, ih h.2, Function.update_of_ne h.1]

theorem position_publish {k : Nat} (hnodup : ids.Nodup) (hk : ids[k]? = some id) :
    (publishPositions f ids i id).position = i + k + 1 := by
  induction ids generalizing f i k with
  | nil => cases hk
  | cons a rest ih =>
    obtain ⟨ha, hrest⟩ := List.nodup_cons.mp hnodup
    rw [publishPositions]
    cases k with
    | zero =>
      obtain rfl : a = id := by simpa using hk
      rw [publishPositions_of_notMem ha, Function.update_self, position_moveTo, Nat.add_zero]
    | succ k =>
      rw [ih hrest (by simpa using hk)]
      omega

end Publish

/-! ### The queue -/

/-- Waiters stand in arrival order behind every grant, with their index for a position, and a grant
has passed over cancelled waiters only. Until the goroutine has returned nobody else has left the
queue. -/
structure Lined (loop : RunLoop) (waiters : List Nat) (waiter : Nat → Waiter) (arrived : Nat)
    (grants : List Nat) : Prop where
  sorted : (grants ++ waiters).Pairwise (· < ·)
  known : ∀ id ∈ grants ++ waiters, id < arrived
  waiting : ∀ id ∈ waiters, (waiter id).granted = false ∧ (waiter id).canceled = false
  position : ∀ i id, waiters[i]? = some id → (waiter id).position = i + 1
  order : ∀ id ∈ grants, ∀ v < id, v ∈ grants ∨ (waiter v).canceled = true
  settled : loop ≠ .done → ∀ v < arrived,
    v ∈ waiters ∨ v ∈ grants ∨ (waiter v).canceled = true

section Lined

variable {loop : RunLoop} {waiters grants : List Nat} {waiter f : Nat → Waiter} {arrived : Nat}

theorem Lined.nodup (h : Lined loop waiters waiter arrived grants) : waiters.Nodup :=
  (List.pairwise_append.mp h.sorted).2.1.imp Nat.ne_of_lt

/-- The queue as it is, with waiters that differ in other respects. -/
theorem Lined.of_same (h : Lined loop waiters waiter arrived grants)
    (hqueued : ∀ id ∈ waiters, (f id).granted = false ∧ (f id).canceled = (waiter id).canceled ∧
      (f id).position = (waiter id).position)
    (hcanceled : ∀ id, (waiter id).canceled = true → (f id).canceled = true) :
    Lined loop waiters f arrived grants where
  __ := h
  waiting id hid := ⟨(hqueued id hid).1, (hqueued id hid).2.1.trans (h.waiting id hid).2⟩
  position i id hid := (hqueued id (List.mem_of_getElem? hid)).2.2.trans (h.position i id hid)
  order id hid v hv := (h.order id hid v hv).imp_right (hcanceled v)
  settled hloop v hv := (h.settled hloop v hv).imp_right (Or.imp_right (hcanceled v))

theorem Lined.move {loop' : RunLoop} (h : Lined loop waiters waiter arrived grants)
    (hloop : loop ≠ .done) : Lined loop' waiters waiter arrived grants :=
  { h with settled := fun _ => h.settled hloop }

theorem Lined.enqueue (h : Lined loop waiters waiter arrived grants)
    (hposition : w.position = waiters.length + 1)
    (hfresh : w.granted = false ∧ w.canceled = false) :
    Lined loop (waiters ++ [arrived]) (Function.update waiter arrived w) (arrived + 1) grants := by
  have hne : ∀ id ∈ grants ++ waiters, id ≠ arrived := fun id hid => Nat.ne_of_lt (h.known id hid)
  refine ⟨?_, ?_, ?_, ?_, ?_, ?_⟩
  · rw [← List.append_assoc]
    refine List.pairwise_append.mpr ⟨h.sorted, List.pairwise_singleton _ _, fun a ha b hb => ?_⟩
    rw [List.mem_singleton.mp hb]
    exact h.known a ha
  · intro id hid
    rw [← List.append_assoc, List.mem_append, List.mem_singleton] at hid
    rcases hid with hid | rfl
    · exact Nat.lt_succ_of_lt (h.known id hid)
    · exact Nat.lt_succ_self _
  · intro id hid
    rcases List.mem_append.mp hid with hid | hid
    · rw [Function.update_of_ne (hne id (List.mem_append_right _ hid))]
      exact h.waiting id hid
    · rw [List.mem_singleton.mp hid, Function.update_self]
      exact hfresh
  · intro i id hid
    rcases Nat.lt_trichotomy i waiters.length with hi | hi | hi
    · rw [List.getElem?_append_left hi] at hid
      rw [Function.update_of_ne (hne id (List.mem_append_right _ (List.mem_of_getElem? hid)))]
      exact h.position i id hid
    · subst hi
      obtain rfl : arrived = id := by simpa using hid
      rw [Function.update_self, hposition]
    · simp [List.getElem?_eq_none (show (waiters ++ [arrived]).length ≤ i by simp; omega)] at hid
  · intro id hid v hv
    have hlt := h.known id (List.mem_append_left _ hid)
    rw [Function.update_of_ne (by omega)]
    exact h.order id hid v hv
  · intro hloop v hv
    rcases Nat.lt_succ_iff_lt_or_eq.mp hv with hv | rfl
    · rw [Function.update_of_ne (Nat.ne_of_lt hv)]
      exact (h.settled hloop v hv).imp_left (List.mem_append_left _)
    · exact Or.inl (List.mem_append_right _ List.mem_cons_self)

/-- A waiter leaves the queue cancelled and the others move up. -/
theorem Lined.erase (h : Lined loop waiters waiter arrived grants)
    (hsame : ∀ v, v ≠ id → f v = waiter v) (hcanceled : (f id).canceled = true) :
    Lined loop (waiters.erase id) (publishPositions f (waiters.erase id) 0) arrived grants := by
  have hmem : ∀ v ∈ waiters.erase id, v ≠ id ∧ v ∈ waiters := fun v hv =>
    h.nodup.mem_erase_iff.mp hv
  have hsub : (grants ++ waiters.erase id).Sublist (grants ++ waiters) :=
    List.Sublist.append_left List.erase_sublist _
  have hgone : ∀ v, (waiter v).canceled = true →
      (publishPositions f (waiters.erase id) 0 v).canceled = true := by
    intro v hc
    rw [canceled_publish]
    by_cases hv : v = id
    · rw [hv, hcanceled]
    · rw [hsame v hv, hc]
  refine ⟨h.sorted.sublist hsub, fun v hv => h.known v (hsub.subset hv), ?_, ?_, ?_, ?_⟩
  · intro v hv
    rw [granted_publish, canceled_publish, hsame v (hmem v hv).1]
    exact h.waiting v (hmem v hv).2
  · intro i v hv
    rw [position_publish (h.nodup.erase id) hv, Nat.zero_add]
  · exact fun g hg v hv => (h.order g hg v hv).imp_right (hgone v)
  · intro hloop v hv
    rcases h.settled hloop v hv with hq | hg | hc
    · by_cases hvid : v = id
      · exact Or.inr (Or.inr (by rw [canceled_publish, hvid, hcanceled]))
      · exact Or.inl (h.nodup.mem_erase_iff.mpr ⟨hvid, hq⟩)
    · exact Or.inr (Or.inl hg)
    · exact Or.inr (Or.inr (hgone v hc))

/-- Whoever arrived before the waiter at the head has been granted a slot or is cancelled. -/
theorem Lined.passed {rest : List Nat} (h : Lined loop (id :: rest) waiter arrived grants)
    (hloop : loop ≠ .done) : ∀ v < id, v ∈ grants ∨ (waiter v).canceled = true := by
  intro v hv
  have hid := h.known id (List.mem_append_right _ List.mem_cons_self)
  refine (h.settled hloop v (by omega)).resolve_left fun hmem => ?_
  rcases List.mem_cons.mp hmem with rfl | hmem
  · omega
  · have := List.rel_of_pairwise_cons (List.pairwise_append.mp h.sorted).2.1 hmem
    omega

theorem Lined.grant {loop' : RunLoop} {rest : List Nat}
    (h : Lined loop (id :: rest) waiter arrived grants) (hloop : loop ≠ .done) :
    Lined loop' rest (Function.update (publishPositions waiter rest 0) id w) arrived
      (grants ++ [id]) := by
  have hne : ∀ v ∈ rest, v ≠ id := fun v hv he => (List.nodup_cons.mp h.nodup).1 (he ▸ hv)
  -- the waiters that are cancelled are none of those in the queue
  have hgone : ∀ v, (waiter v).canceled = true →
      (Function.update (publishPositions waiter rest 0) id w v).canceled = true := by
    intro v hc
    have hv : v ≠ id := by
      rintro rfl
      cases hc.symm.trans (h.waiting v List.mem_cons_self).2
    rw [Function.update_of_ne hv, canceled_publish, hc]
  refine ⟨by simpa using h.sorted, by simpa using h.known, ?_, ?_, ?_, ?_⟩
  · intro v hv
    rw [Function.update_of_ne (hne v hv), granted_publish, canceled_publish]
    exact h.waiting v (List.mem_cons_of_mem _ hv)
  · intro i v hv
    rw [Function.update_of_ne (hne v (List.mem_of_getElem? hv)),
      position_publish (List.nodup_cons.mp h.nodup).2 hv, Nat.zero_add]
  · intro g hg v hv
    have hold : v ∈ grants ∨ (waiter v).canceled = true := by
      rcases List.mem_append.mp hg with hg | hg
      · exact h.order g hg v hv
      · exact h.passed hloop v (List.mem_singleton.mp hg ▸ hv)
    exact hold.imp (List.mem_append_left _) (hgone v)
  · intro _ v hv
    rcases h.settled hloop v hv with hq | hg | hc
    · rcases List.mem_cons.mp hq with rfl | hq
      · exact Or.inr (Or.inl (by simp))
      · exact Or.inl hq
    · exact Or.inr (Or.inl (List.mem_append_left _ hg))
    · exact Or.inr (Or.inr (hgone v hc))

theorem Lined.clear (h : Lined loop waiters waiter arrived grants)
    (hcanceled : ∀ v, (f v).canceled = (waiter v).canceled) : Lined .done [] f arrived grants where
  sorted := by simpa using (List.pairwise_append.mp h.sorted).1
  known id hid := h.known id (List.mem_append_left _ (by simpa using hid))
  waiting _ hid := nomatch hid
  position _ _ hid := by simp at hid
  order id hid v hv := (h.order id hid v hv).imp_right (hcanceled v).trans
  settled hloop := absurd rfl hloop

end Lined

/-! ### Slots -/

/-- A waiter's flags and caller against the slots granted and given back. -/
structure Sound (id : Nat) (grants returns : List Nat) (w : Waiter) : Prop where
  slot : w.granted = true → w.caller = .released ∨ id ∈ grants ∧ id ∉ returns
  kept : id ∈ grants → w.canceled = false ∧ (w.caller.pending = true → w.granted = true)
  holding : w.caller = .holding → w.granted = true
  answered : w.caller.pending = true → w.ready = true → w.failed = true ∨ w.granted = true

structure Slots (waiter : Nat → Waiter) (grants returns : List Nat) (active : Int) : Prop where
  sound : ∀ id, Sound id grants returns (waiter id)
  nodup : returns.Nodup
  subset : returns ⊆ grants
  counted : active = grants.length - returns.length

section Slots

variable {grants returns : List Nat} {waiter f : Nat → Waiter} {active : Int}

/-- The slots granted and not given back are as many as the two records differ by. -/
theorem Slots.outstanding (h : Slots waiter grants returns active) (hnodup : grants.Nodup) :
    active = (grants.filter fun id => id ∉ returns).length := by
  have hperm : (grants.filter fun id => id ∈ returns).Perm returns := by
    refine (List.perm_ext_iff_of_nodup (hnodup.filter _) h.nodup).mpr fun id => ?_
    simpa using fun hid => h.subset hid
  have hsplit := List.length_eq_length_filter_add (l := grants) fun id => id ∈ returns
  have hlength := hperm.length_eq
  have hcounted := h.counted
  simp only [← decide_not] at hsplit
  omega

theorem Slots.setWaiter (h : Slots waiter grants returns active)
    (hw : Sound id grants returns w) :
    Slots (Function.update waiter id w) grants returns active where
  __ := h
  sound v := by
    by_cases hv : v = id
    · subst hv
      rwa [Function.update_self]
    · rw [Function.update_of_ne hv]
      exact h.sound v

theorem Slots.publish {ids : List Nat} {i : Nat} (h : Slots waiter grants returns active) :
    Slots (publishPositions waiter ids i) grants returns active where
  __ := h
  sound v := by
    obtain ⟨n, p, hv⟩ := publishPositions_eq waiter ids i v
    rw [hv]
    exact ⟨(h.sound v).slot, (h.sound v).kept, (h.sound v).holding, (h.sound v).answered⟩

/-- A slot is given back by a caller that then has none. -/
theorem Slots.giveBack (h : Slots waiter grants returns active) (hid : id ∈ grants)
    (hnew : id ∉ returns) (hslot : w.granted = true → w.caller = .released)
    (hcaller : w.caller = .released ∨ w.caller = .over)
    (hcanceled : w.canceled = (waiter id).canceled) :
    Slots (Function.update waiter id w) grants (returns ++ [id]) (active - 1) where
  sound v := by
    by_cases hv : v = id
    · subst hv
      rw [Function.update_self]
      refine ⟨fun hg => Or.inl (hslot hg), fun hg => ?_, ?_, ?_⟩
      · refine ⟨hcanceled.trans ((h.sound v).kept hg).1, ?_⟩
        rcases hcaller with hc | hc <;> simp [hc, Caller.pending]
      · rcases hcaller with hc | hc <;> simp [hc]
      · rcases hcaller with hc | hc <;> simp [hc, Caller.pending]
    · rw [Function.update_of_ne hv]
      have hold := h.sound v
      refine { hold with slot := fun hg => (hold.slot hg).imp_right fun hs => ?_ }
      simp [hs, hv]
  nodup := by
    refine List.nodup_append.mpr ⟨h.nodup, List.nodup_singleton _, fun a ha b hb => ?_⟩
    rw [List.mem_singleton.mp hb]
    exact fun hab => hnew (hab ▸ ha)
  subset := by simpa using ⟨h.subset, hid⟩
  counted := by
    have hcounted := h.counted
    simp only [List.length_append, List.length_singleton]
    omega

/-- A slot is granted to a waiter that never had one and whose caller has not given up. -/
theorem Slots.grant (h : Slots waiter grants returns active) (hnew : id ∉ grants)
    (hcanceled : w.canceled = false) (hgranted : w.granted = true) :
    Slots (Function.update waiter id w) (grants ++ [id]) returns (active + 1) where
  __ := h
  sound v := by
    by_cases hv : v = id
    · subst hv
      rw [Function.update_self]
      refine ⟨fun _ => Or.inr ⟨by simp, fun hr => hnew (h.subset hr)⟩, fun _ => ?_,
        fun _ => hgranted,
        fun _ _ => Or.inr hgranted⟩
      exact ⟨hcanceled, fun _ => hgranted⟩
    · rw [Function.update_of_ne hv]
      have hold := h.sound v
      refine { hold with
        slot := fun hg => (hold.slot hg).imp_right fun hs => ?_
        kept := fun hg => hold.kept ?_ }
      · exact ⟨List.mem_append_left _ hs.1, hs.2⟩
      · simpa [hv] using hg
  subset := fun v hv => List.mem_append_left _ (h.subset hv)
  counted := by
    have hcounted := h.counted
    simp only [List.length_append, List.length_singleton]
    omega

end Slots

/-! ### Whole runs -/

structure Exact (s : Scheduler) : Prop where
  lined : Lined s.loop s.waiters s.waiter s.arrived s.grants
  slots : Slots s.waiter s.grants s.returns s.activeUpstreams
  stopped : s.loop = .stopping ∨ s.loop = .done → s.stop = true
  done : s.loop = .done → s.waiters = []
  closed : s.closed = true → s.loop = .done
  awake : s.loop = .parked false → s.wake = false → s.notifying = 0 → ¬ s.Grantable

theorem exact_new {cfg : SchedulerConfig} : Exact (new cfg) where
  lined := by
    refine ⟨List.Pairwise.nil, ?_, ?_, ?_, ?_, ?_⟩ <;> simp [new]
  slots := by
    refine ⟨fun id => ⟨?_, ?_, ?_, ?_⟩, List.nodup_nil, List.Subset.refl _, rfl⟩ <;>
      simp [new, Caller.pending]
  stopped h := by simp [new] at h
  done _ := rfl
  closed h := by simp [new] at h
  awake h := by simp [new] at h

theorem Exact.nodup_grants (h : Exact s) : s.grants.Nodup :=
  (List.pairwise_append.mp h.lined.sorted).1.imp Nat.ne_of_lt

/-- A caller that has not been told otherwise holds the slot it was granted. -/
theorem Exact.slot (h : Exact s) (hgranted : (s.waiter id).granted = true)
    (hcaller : (s.waiter id).caller ≠ .released) : id ∈ s.grants ∧ id ∉ s.returns :=
  ((h.slots.sound id).slot hgranted).resolve_left hcaller

/-- The queue, after a change to a waiter that leaves its place and its flags. -/
theorem Exact.lined_update (h : Exact s)
    (hgranted : w.granted = true → (s.waiter id).granted = true)
    (hcanceled : w.canceled = (s.waiter id).canceled)
    (hposition : w.position = (s.waiter id).position) :
    Lined s.loop s.waiters (Function.update s.waiter id w) s.arrived s.grants := by
  have hsame : ∀ v, (Function.update s.waiter id w v).canceled = (s.waiter v).canceled := by
    intro v
    by_cases hv : v = id
    · rw [hv, Function.update_self, hcanceled]
    · rw [Function.update_of_ne hv]
  refine h.lined.of_same (fun v hv => ⟨?_, hsame v, ?_⟩) fun v hc => (hsame v).trans hc
  · by_cases hvid : v = id
    · subst hvid
      rw [Function.update_self]
      exact Bool.eq_false_iff.mpr fun hw =>
        absurd (hgranted hw) (by simp [(h.lined.waiting v hv).1])
    · rw [Function.update_of_ne hvid]
      exact (h.lined.waiting v hv).1
  · by_cases hvid : v = id
    · rw [hvid, Function.update_self, hposition]
    · rw [Function.update_of_ne hvid]

/-- A step of a caller that changes neither the queue nor the slots. -/
theorem Exact.moveCaller (h : Exact s) (hpending : (s.waiter id).caller.pending = true)
    (hcaller : w.caller.pending = true ∨ w.caller = .over ∨
      w.caller = .holding ∧ (s.waiter id).granted = true)
    (hflags : w.granted = (s.waiter id).granted ∧ w.canceled = (s.waiter id).canceled ∧
      w.ready = (s.waiter id).ready ∧ w.failed = (s.waiter id).failed)
    (hposition : w.position = (s.waiter id).position) : Exact (s.setWaiter id w) := by
  obtain ⟨hgranted, hcanceled, hready, hfailed⟩ := hflags
  have hold := h.slots.sound id
  have hsound : Sound id s.grants s.returns w := by
    refine ⟨fun hg => Or.inr (h.slot (hgranted ▸ hg) (Caller.ne_released hpending)), fun hg => ?_,
      fun hc => ?_, fun _ => ?_⟩
    · rw [hgranted, hcanceled]
      exact ⟨(hold.kept hg).1, fun _ => (hold.kept hg).2 hpending⟩
    · rw [hc] at hcaller
      rw [hgranted]
      rcases hcaller with hc | hc | hc
      · cases hc
      · cases hc
      · exact hc.2
    · rw [hready, hfailed, hgranted]
      exact hold.answered hpending
  exact { h with
    lined := h.lined_update (fun hg => hgranted ▸ hg) hcanceled hposition
    slots := h.slots.setWaiter hsound }

theorem Exact.enqueueUpstream (h : Exact s) : Exact s.enqueueUpstream := by
  unfold Scheduler.enqueueUpstream
  split
  · exact h
  · next hopen =>
    have hstop : s.stop = false := by simpa using (not_or.mp hopen).1
    have hfresh : s.arrived ∉ s.grants := fun hmem =>
      absurd (h.lined.known _ (List.mem_append_left _ hmem)) (Nat.lt_irrefl _)
    refine ⟨h.lined.enqueue rfl ⟨rfl, rfl⟩, h.slots.setWaiter ?_, h.stopped, ?_, h.closed, ?_⟩
    · refine ⟨fun hg => ?_, fun hg => absurd hg hfresh, fun hc => ?_, fun _ hr => ?_⟩
      · cases hg
      · cases hc
      · cases hr
    · intro hloop
      cases hstop.symm.trans (h.stopped (Or.inr hloop))
    · intro _ hwake
      cases hwake

theorem Exact.giveBack (h : Exact s) (hcaller : (s.waiter id).caller ≠ .released)
    (hgranted : (s.waiter id).granted = true) : Exact (s.giveBack id) := by
  obtain ⟨hid, hnew⟩ := h.slot hgranted hcaller
  refine ⟨?_, ?_, h.stopped, h.done, h.closed, fun _ _ hn => absurd hn (Nat.succ_ne_zero _)⟩
  · exact h.lined_update (fun _ => hgranted) rfl rfl
  · exact h.slots.giveBack hid hnew nofun (Or.inr rfl) rfl

theorem Exact.release (h : Exact s) (hcaller : (s.waiter id).caller = .holding) :
    Exact (s.release id) := by
  have hgranted := (h.slots.sound id).holding hcaller
  obtain ⟨hid, hnew⟩ := h.slot hgranted (by simp [hcaller])
  -- the slot that is released is counted, so the counter is positive
  have hpos : 0 < s.activeUpstreams := by
    rw [h.slots.outstanding h.nodup_grants]
    have hmem : id ∈ s.grants.filter fun id => id ∉ s.returns := by simp [hid, hnew]
    exact Int.natCast_pos.mpr (List.length_pos_of_mem hmem)
  unfold Scheduler.release
  rw [if_pos hpos]
  refine ⟨?_, ?_, h.stopped, h.done, h.closed, fun _ _ hn => absurd hn (Nat.succ_ne_zero _)⟩
  · exact h.lined_update (fun _ => hgranted) rfl rfl
  · exact h.slots.giveBack hid hnew (fun _ => rfl) (Or.inl rfl) rfl

theorem Exact.withdraw (h : Exact s) (hpending : (s.waiter id).caller.pending = true)
    (hgranted : (s.waiter id).granted = false) : Exact (s.withdraw id) := by
  have hungranted : id ∉ s.grants := fun hid =>
    absurd (((h.slots.sound id).kept hid).2 hpending) (by simp [hgranted])
  refine ⟨?_, ?_, h.stopped, fun hloop => ?_, h.closed, fun _ _ hn =>
    absurd hn (Nat.succ_ne_zero _)⟩
  · refine h.lined.erase (fun v hv => Function.update_of_ne hv _ _) ?_
    rw [Function.update_self]
  · refine (h.slots.setWaiter ⟨fun hg => ?_, fun hid => absurd hid hungranted, fun hc => ?_,
      fun hp => ?_⟩).publish
    · cases hgranted.symm.trans hg
    · cases hc
    · cases hp
  · show s.waiters.erase id = []
    rw [h.done hloop]
    rfl

theorem Exact.contextDone (h : Exact s) (hcaller : (s.waiter id).caller = .waiting) :
    Exact (s.contextDone id) := by
  unfold Scheduler.contextDone
  split
  · next hgranted => exact h.giveBack (by simp [hcaller]) hgranted
  · next hgranted => exact h.withdraw (by simp [hcaller, Caller.pending]) (by simpa using hgranted)

theorem Exact.cancel (h : Exact s) (hpending : (s.waiter id).caller.pending = true) :
    Exact (s.cancel id) := by
  unfold Scheduler.cancel
  split
  · next hgranted => exact h.giveBack (Caller.ne_released hpending) hgranted
  · next hgranted =>
    split
    · have hset : Exact (s.setCaller id .over) :=
        h.moveCaller hpending (Or.inr (Or.inl rfl)) ⟨rfl, rfl, rfl, rfl⟩ rfl
      exact { hset with awake := fun _ _ hn => absurd hn (Nat.succ_ne_zero _) }
    · exact h.withdraw hpending (by simpa using hgranted)

theorem exact_callerStep {a : CallerAct} (h : Exact s) (hstep : s.callerStep id a = some t) :
    Exact t := by
  cases a with
  | wait =>
    obtain ⟨hc, ⟨⟩⟩ := Option.ite_none_right_eq_some.mp hstep
    exact h.moveCaller (by simp [hc, Caller.pending]) (Or.inl rfl) ⟨rfl, rfl, rfl, rfl⟩ rfl
  | onPosition ok =>
    obtain ⟨hc, ⟨⟩⟩ := Option.ite_none_right_eq_some.mp hstep
    refine h.moveCaller (by simp [hc, Caller.pending]) (Or.inl ?_) ⟨rfl, rfl, rfl, rfl⟩ rfl
    cases ok <;> rfl
  | ready =>
    obtain ⟨⟨hc, hready⟩, ⟨⟩⟩ := Option.ite_none_right_eq_some.mp hstep
    have hpending : (s.waiter id).caller.pending = true := by simp [hc, Caller.pending]
    refine h.moveCaller hpending (Or.inr ?_) ⟨rfl, rfl, rfl, rfl⟩ rfl
    by_cases hfailed : (s.waiter id).failed = true
    · exact Or.inl (if_pos hfailed)
    · exact Or.inr ⟨if_neg hfailed, ((h.slots.sound id).answered hpending hready).resolve_left
        hfailed⟩
  | positions =>
    simp only [callerStep] at hstep
    split at hstep
    · obtain ⟨hc, ⟨⟩⟩ := Option.ite_none_right_eq_some.mp hstep
      refine h.moveCaller (by simp [hc, Caller.pending]) (Or.inl ?_) ⟨rfl, rfl, rfl, rfl⟩ rfl
      dsimp only
      split <;> rfl
    · cases hstep
  | contextDone =>
    obtain ⟨hc, ⟨⟩⟩ := Option.ite_none_right_eq_some.mp hstep
    exact h.contextDone hc
  | cancel =>
    obtain ⟨hc, ⟨⟩⟩ := Option.ite_none_right_eq_some.mp hstep
    refine h.cancel ?_
    rcases hc with hc | hc <;> simp [hc, Caller.pending]
  | release =>
    simp only [callerStep] at hstep
    split at hstep
    · next hc =>
      cases hstep
      exact h.release hc
    · cases hstep
      exact h
    · cases hstep

/-- No waiter in the queue is cancelled, so the first loop of `grantReady` finds nothing to drop. -/
theorem Exact.dropCanceled (h : Exact s) : s.dropCanceled s.waiters = s := by
  cases hw : s.waiters with
  | nil =>
    rw [Scheduler.dropCanceled, ← hw]
  | cons id rest =>
    have hid := (h.lined.waiting id (by simp [hw])).2
    rw [Scheduler.dropCanceled, if_neg (by simp [hid]), ← hw]

/-- What `grantReady` does: without a waiter or a slot the goroutine parks, before its time it parks
with a timer, and otherwise the waiter at the head is granted a slot. -/
theorem Exact.grantReady_cases (h : Exact s) (now next : Time) :
    ¬ s.Grantable ∧ s.grantReady now next = { s with loop := .parked false } ∨
    s.grantReady now next = { s with loop := .parked true } ∨
    ∃ id rest, s.waiters = id :: rest ∧ s.activeUpstreams < s.effectiveMax ∧
      s.grantReady now next = s.grant id rest next := by
  unfold Scheduler.grantReady
  rw [h.dropCanceled]
  dsimp only
  split
  · next hw => exact Or.inl ⟨fun hg => hg.1 hw, rfl⟩
  · next id rest hw =>
    split
    · next hmax => exact Or.inl ⟨fun hg => absurd hg.2 (Int.not_lt.mpr hmax), rfl⟩
    · next hmax =>
      split
      · exact Or.inr (Or.inl rfl)
      · exact Or.inr (Or.inr ⟨id, rest, hw, Int.not_le.mp hmax, rfl⟩)

theorem Exact.grant {rest : List Nat} {next : Time} (h : Exact s) (hloop : s.loop = .looking)
    (hw : s.waiters = id :: rest) : Exact (s.grant id rest next) := by
  have hlined := h.lined
  rw [hw, hloop] at hlined
  have hid := hlined.waiting id List.mem_cons_self
  have hnew : id ∉ s.grants := fun hmem =>
    absurd ((List.pairwise_append.mp hlined.sorted).2.2 id hmem id List.mem_cons_self)
      (Nat.lt_irrefl id)
  refine ⟨hlined.grant (by simp), ?_, fun hl => ?_, fun hl => ?_, fun hc => ?_, fun hl _ _ => ?_⟩
  · refine h.slots.publish.grant hnew ?_ rfl
    rw [canceled_publish]
    exact hid.2
  · cases rest <;> rcases hl with hl | hl <;> cases hl
  · cases rest <;> cases hl
  · cases hloop.symm.trans (h.closed hc)
  · cases rest with
    | nil => exact fun hg => hg.1 rfl
    | cons => cases hl

theorem Exact.failWaiters (h : Exact s) (hloop : s.loop = .stopping) : Exact s.failWaiters := by
  have hsame : ∀ v, (s.failWaiters.waiter v).canceled = (s.waiter v).canceled := by
    intro v
    unfold Scheduler.failWaiters
    dsimp only
    split <;> rfl
  refine ⟨h.lined.clear hsame, ⟨fun v => ?_, h.slots.nodup, h.slots.subset, h.slots.counted⟩,
    fun _ => h.stopped (Or.inl hloop), fun _ => rfl, fun _ => rfl, nofun⟩
  have hold := h.slots.sound v
  unfold Scheduler.failWaiters
  dsimp only
  split
  · exact { hold with answered := fun _ _ => Or.inl rfl }
  · exact hold

theorem Exact.moveLoop {loop : RunLoop} (wake : Bool) (h : Exact s) (hfrom : s.loop ≠ .done)
    (hto : loop ≠ .done) (hstop : loop = .stopping → s.stop = true)
    (hpark : loop = .parked false → ¬ s.Grantable) : Exact { s with loop, wake } where
  __ := h
  lined := h.lined.move hfrom
  stopped hl := hl.elim hstop fun hl => absurd hl hto
  done hl := absurd hl hto
  closed hc := absurd (h.closed hc) hfrom
  awake hl _ _ := hpark hl

theorem exact_grantReady {now next : Time} (h : Exact s) (hloop : s.loop = .looking) :
    Exact (s.grantReady now next) := by
  have hfrom : s.loop ≠ .done := by simp [hloop]
  rcases h.grantReady_cases now next with ⟨hno, heq⟩ | heq | ⟨id, rest, hw, -, heq⟩
  · rw [heq]
    exact h.moveLoop s.wake hfrom (by simp) nofun fun _ => hno
  · rw [heq]
    exact h.moveLoop s.wake hfrom (by simp) nofun nofun
  · rw [heq]
    exact h.grant hloop hw

theorem exact_step {e : Event} (h : Exact s) (hstep : s.step e = some t) : Exact t := by
  cases e with
  | enqueueUpstream =>
    cases hstep
    exact h.enqueueUpstream
  | caller id a => exact exact_callerStep h hstep
  | updateCapacity | reportSuccess | reportFailure =>
    cases hstep
    exact { h with awake := fun _ _ hn => absurd hn (Nat.succ_ne_zero _) }
  | notify =>
    obtain ⟨-, ⟨⟩⟩ := Option.ite_none_right_eq_some.mp hstep
    exact { h with awake := nofun }
  | close =>
    obtain ⟨-, ⟨⟩⟩ := Option.ite_none_left_eq_some.mp hstep
    exact { h with stopped := fun _ => rfl, awake := fun _ _ hn => absurd hn (Nat.succ_ne_zero _) }
  | closeReturns =>
    obtain ⟨hloop, ⟨⟩⟩ := Option.ite_none_right_eq_some.mp hstep
    exact { h with closed := fun _ => hloop }
  | grantReady now next =>
    obtain ⟨hloop, ⟨⟩⟩ := Option.ite_none_right_eq_some.mp hstep
    exact exact_grantReady h hloop
  | wake =>
    simp only [step] at hstep
    split at hstep
    · next hloop =>
      obtain ⟨-, ⟨⟩⟩ := Option.ite_none_right_eq_some.mp hstep
      exact h.moveLoop false (by simp [hloop]) (by simp) nofun nofun
    · cases hstep
  | timer =>
    obtain ⟨hloop, ⟨⟩⟩ := Option.ite_none_right_eq_some.mp hstep
    exact h.moveLoop s.wake (by simp [hloop]) (by simp) nofun nofun
  | stop =>
    simp only [step] at hstep
    split at hstep
    · next hloop =>
      obtain ⟨hstop, ⟨⟩⟩ := Option.ite_none_right_eq_some.mp hstep
      exact h.moveLoop s.wake (by simp [hloop]) (by simp) (fun _ => hstop) nofun
    · cases hstep
  | failWaiters =>
    obtain ⟨hloop, ⟨⟩⟩ := Option.ite_none_right_eq_some.mp hstep
    exact h.failWaiters hloop

theorem grants_callerStep {a : CallerAct} (hstep : s.callerStep id a = some t) :
    t.grants = s.grants := by
  cases a with
  | wait | onPosition | ready =>
    obtain ⟨-, ⟨⟩⟩ := Option.ite_none_right_eq_some.mp hstep
    rfl
  | contextDone =>
    obtain ⟨-, ⟨⟩⟩ := Option.ite_none_right_eq_some.mp hstep
    unfold contextDone
    split <;> rfl
  | cancel =>
    obtain ⟨-, ⟨⟩⟩ := Option.ite_none_right_eq_some.mp hstep
    unfold cancel
    split
    · rfl
    · split <;> rfl
  | positions =>
    simp only [callerStep] at hstep
    split at hstep
    · obtain ⟨-, ⟨⟩⟩ := Option.ite_none_right_eq_some.mp hstep
      rfl
    · cases hstep
  | release =>
    simp only [callerStep] at hstep
    split at hstep <;> cases hstep <;> rfl

/-- Only `grantReady` grants, and only to the waiter at the head while a slot is free. -/
theorem grants_of_step {e : Event} (h : Exact s) (hstep : s.step e = some t)
    (hgrant : t.grants ≠ s.grants) :
    ∃ id rest, s.waiters = id :: rest ∧ s.loop = .looking ∧ s.activeUpstreams < s.effectiveMax ∧
      t.grants = s.grants ++ [id] := by
  cases e with
  | grantReady now next =>
    obtain ⟨hloop, ⟨⟩⟩ := Option.ite_none_right_eq_some.mp hstep
    rcases h.grantReady_cases now next with ⟨-, heq⟩ | heq | ⟨id, rest, hw, hmax, heq⟩
    · exact absurd (congrArg grants heq) hgrant
    · exact absurd (congrArg grants heq) hgrant
    · exact ⟨id, rest, hw, hloop, hmax, congrArg grants heq⟩
  | enqueueUpstream =>
    cases hstep
    refine absurd ?_ hgrant
    unfold enqueueUpstream
    split <;> rfl
  | caller id a => exact absurd (grants_callerStep hstep) hgrant
  | updateCapacity | reportSuccess | reportFailure =>
    cases hstep
    exact absurd rfl hgrant
  | notify | closeReturns | timer | failWaiters =>
    obtain ⟨-, ⟨⟩⟩ := Option.ite_none_right_eq_some.mp hstep
    exact absurd rfl hgrant
  | close =>
    obtain ⟨-, ⟨⟩⟩ := Option.ite_none_left_eq_some.mp hstep
    exact absurd rfl hgrant
  | wake | stop =>
    simp only [step] at hstep
    split at hstep
    · obtain ⟨-, ⟨⟩⟩ := Option.ite_none_right_eq_some.mp hstep
      exact absurd rfl hgrant
    · cases hstep

/-- After every run: the counter is the number of slots granted and not given back; every waiter's
position is its place in the queue; the queue is empty once `Close` has returned; with no `notify`
outstanding, the goroutine is not parked for good while a waiter could be granted a slot; and the
next step grants a slot only below the effective maximum, to an uncancelled waiter, with everybody
who came earlier granted one or cancelled. -/
theorem upstream_slots_exact {cfg : SchedulerConfig} {events : List Event}
    (hrun : Trace.exec step (new cfg) events = some s) :
    (s.activeUpstreams = (s.grants.filter fun id => id ∉ s.returns).length ∧
      0 ≤ s.activeUpstreams) ∧
    (∀ i id, s.waiters[i]? = some id → (s.waiter id).position = i + 1) ∧
    (s.closed = true → s.waiters = []) ∧
    (s.notifying = 0 → ¬ (s.loop = .parked false ∧ s.wake = false ∧ s.Grantable)) ∧
    ∀ e t, s.step e = some t → t.grants ≠ s.grants →
      s.activeUpstreams < s.effectiveMax ∧
      ∃ id ∈ s.waiters, t.grants = s.grants ++ [id] ∧ (s.waiter id).canceled = false ∧
        ∀ v < id, v ∈ s.grants ∨ (s.waiter v).canceled = true := by
  have h : Exact s := Trace.exec_always exact_step exact_new hrun
  have hcount := h.slots.outstanding h.nodup_grants
  refine ⟨⟨hcount, by omega⟩, h.lined.position, fun hc => h.done (h.closed hc), ?_, ?_⟩
  · exact fun hquiet ⟨hloop, hwake, hgrantable⟩ => h.awake hloop hwake hquiet hgrantable
  · intro e t hstep hgrant
    obtain ⟨id, rest, hw, hloop, hmax, hgrants⟩ := grants_of_step h hstep hgrant
    have hlined := h.lined
    rw [hw] at hlined
    refine ⟨hmax, id, by simp [hw], hgrants, (hlined.waiting id List.mem_cons_self).2, ?_⟩
    exact hlined.passed (by simp [hloop])

/-- Two slots for four admissions: the first is cancelled before its turn, the second and the third
are granted a slot, the third gives its slot back in `Wait`, which the fourth is then granted. -/
def sharedRun : List Event :=
  [.enqueueUpstream, .enqueueUpstream, .enqueueUpstream, .caller 0 .cancel, .notify,
    .grantReady 1 2, .grantReady 2 3, .caller 1 .wait, .caller 1 (.onPosition true),
    .caller 1 .positions, .caller 1 (.onPosition true), .caller 1 .ready, .enqueueUpstream, .wake,
    .grantReady 3 4, .caller 2 .wait, .caller 2 (.onPosition false), .caller 2 .cancel]

theorem shared_slots_exact : ∃ s,
    Trace.exec step (new ⟨2, 8⟩) sharedRun = some s ∧
    (s.activeUpstreams = 1 ∧ s.grants = [1, 2] ∧ s.waiters = [3] ∧ s.Grantable) ∧
    (s.waiter 3).position = 1 ∧ ¬ (s.notifying = 0 ∧ s.loop = .parked false ∧ s.wake = false) := by
  obtain ⟨s, hrun, hfacts⟩ : ∃ s, Trace.exec step (new ⟨2, 8⟩) sharedRun = some s ∧
      (s.activeUpstreams = 1 ∧ s.grants = [1, 2] ∧ s.waiters = [3]) ∧
        s.activeUpstreams < s.effectiveMax := by decide +kernel
  obtain ⟨-, hposition, -, hawake, -⟩ := upstream_slots_exact hrun
  have hgrantable : s.Grantable := ⟨by simp [hfacts.1.2.2], hfacts.2⟩
  refine ⟨s, hrun, ⟨hfacts.1.1, hfacts.1.2.1, hfacts.1.2.2, hgrantable⟩, ?_, ?_⟩
  · exact hposition 0 3 (by simp [hfacts.1.2.2])
  · exact fun ⟨hquiet, hloop, hwake⟩ => hawake hquiet ⟨hloop, hwake, hgrantable⟩

end Scheduler

end Aquifer.Websocket
