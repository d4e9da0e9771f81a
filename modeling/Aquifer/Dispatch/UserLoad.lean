import Mathlib.Data.List.Nodup
import Aquifer.Dispatch.Retire

/-! The unfinished work of each user, as the tracker counts it and as it is. -/
namespace Aquifer.Registry

def Call.job : Call → Job
  | .start job | .resolved job _ | .reserved job _ | .handed job | .refused job _ => job

variable {c : Routing} {s t : Registry} {e : Event} {p q w : Nat} {job j : Job} {id : String}
  {user : String} {call : Call} {users : UserLoads} {key : String}

def Call.granted : Call → Bool
  | .reserved .. | .handed _ => true
  | _ => false

/-- How many of the user's jobs, or of the webhook deliveries owed to the user, are accepted and
have not finished. -/
def outstanding (s : Registry) (user : String) (webhook : Bool) : Nat :=
  (s.accepted ++ s.attached).countP fun j =>
    j.userID = user ∧ j.isWebhookDelivery = webhook ∧ j.id ∉ s.finished

def expected (s : Registry) (user : String) : UserLoad :=
  { jobs := s.outstanding user false, webhooks := s.outstanding user true }

/-- A job finishes only after its enqueue call has returned, and no backlog is attached on disk. -/
def Orderly (s : Registry) : Event → Prop
  | .finish _ id | .expire _ id => s.calls.lookup id = none
  | .attach .. => False
  | _ => True

instance (s : Registry) : (e : Event) → Decidable (Orderly s e)
  | .finish _ id | .expire _ id => inferInstanceAs (Decidable (s.calls.lookup id = none))
  | .attach .. => instDecidableFalse
  | .submit .. | .resolve .. | .reserve .. | .handoff .. | .account .. | .dropStale ..
  | .workerFor .. | .mode .. | .leftInFlight .. | .takeSpills .. | .paged .. | .elapse .. | .take ..
  | .load .. | .exhaust .. | .idle .. | .check .. | .onIdle .. | .notify .. | .recheck .. =>
    instDecidableTrue

/-- Nothing is known of a queue before it is opened. -/
def Blank (s : Registry) : Prop := ∀ {q}, s.queueCount ≤ q → s.queue q = {}

theorem Blank.setQueue {x : Queue} (h : Blank s) (hq : q < s.queueCount) :
    Blank (s.setQueue q x) := by
  intro p hp
  have hne : p ≠ q := (hq.trans_le hp).ne'
  rw [queue_setQueue, if_neg hne]
  exact h hp

theorem Blank.openQueue (h : Blank s) : Blank (s.openQueue w key).1 := by
  unfold Registry.openQueue
  split
  · exact h
  · intro p hp
    rw [queue_newQueue, if_neg (Nat.lt_of_succ_le hp).ne']
    exact h (Nat.le_of_succ_le hp)

theorem blank_step (hs : Sound s) (h : Blank s) (hstep : Stepped c s e t) : Blank t := by
  cases hstep with
  | resolve | workerFor =>
    rw [resolveWorker_eq]
    exact h
  | grant hcall =>
    exact Blank.setQueue h.openQueue (grant_owes hs (hs.calls hcall)).1
  | handoff hcall => exact h.setQueue (hs.calls hcall).1
  | dropStale =>
    rw [dropWorker_eq]
    exact h
  | @attach q jobs hq => exact h.setQueue hq
  | finish hq | expire hq => exact h.setQueue hq
  | @onIdle q hq =>
    simp only [onIdle]
    split
    · exact h.setQueue hq
    · split <;> exact Blank.setQueue (s := s.setWorker _ _) h hq
  | notify hq =>
    rw [dropWorker_eq]
    exact Blank.setQueue h hq
  | takeSpills hq | paged hq | elapse hq | take hq | load hq | exhaust hq | idle hq | check hq
  | recheck hq => exact h.setQueue hq
  | _ => exact h

/-- The queue has nothing on disk and has read no page. -/
def Queue.Unpaged (x : Queue) : Prop := x.spilling = false ∧ x.pending = [] ∧ x.recent = false

/-- The queues differ in how far their loops are, not in their jobs. -/
def Queue.SameJobs (x y : Queue) : Prop :=
  y.owed = x.owed ∧ y.cmds = x.cmds ∧ y.held = x.held ∧ (x.Unpaged → y.Unpaged)

/-- The slot that a call has on the queue and has not handed the job over to yet. -/
def slots (s : Registry) (q : Nat) (job : Job) : Nat :=
  if s.calls.lookup job.id = some (.reserved job q) then 1 else 0

/-- Each job that is owed is owed once, by one queue, and is either on its way there, in the buffer
or in memory; it has not finished, and either its call has returned success or it is under way. -/
structure Accounted (s : Registry) : Prop where
  attached : s.attached = []
  unpaged : ∀ {q}, (s.queue q).Unpaged
  finished : ∀ {id}, id ∈ s.finished → id ∈ s.submitted
  accepted : ∀ {j}, j ∈ s.accepted → j.id ∈ s.submitted
  nodup : (s.accepted.map Job.id).Nodup
  calls : ∀ {id call}, s.calls.lookup id = some call → call.job.id = id ∧ id ∈ s.submitted ∧
    id ∉ s.finished ∧ ∀ j ∈ s.accepted, j.id ≠ id
  owed : ∀ {q j}, j ∈ (s.queue q).owed → j.id ∈ s.submitted ∧ j.id ∉ s.finished ∧
    (j ∈ s.accepted ∨ ∃ call, s.calls.lookup j.id = some call ∧ call.job = j ∧ call.granted = true)
  single : ∀ {p q j k}, j ∈ (s.queue p).owed → k ∈ (s.queue q).owed → j.id = k.id → p = q ∧ j = k
  once : ∀ {q}, (s.queue q).owed.Nodup
  count : ∀ q j, (s.queue q).owed.count j =
    s.slots q j + (s.queue q).cmds.count j + (s.queue q).held.count j

theorem accounted_init : Accounted {} where
  attached := rfl
  unpaged := ⟨rfl, rfl, rfl⟩
  finished := by simp
  accepted := by simp
  nodup := by simp
  calls := by simp
  owed := by simp
  single := by simp
  once := by simp
  count := by simp [slots]

namespace Accounted

/-- Steps that leave the calls and what is owed, and move a job at most from a queue's buffer into
its memory. -/
theorem moved (h : Accounted s) (hcalls : t.calls = s.calls)
    (hsubmitted : t.submitted = s.submitted)
    (haccepted : t.accepted = s.accepted) (hattached : t.attached = s.attached)
    (hfinished : t.finished = s.finished) (howed : ∀ q, (t.queue q).owed = (s.queue q).owed)
    (hunpaged : ∀ q, (t.queue q).Unpaged)
    (hcount : ∀ q j, (t.queue q).cmds.count j + (t.queue q).held.count j =
      (s.queue q).cmds.count j + (s.queue q).held.count j) : Accounted t := by
  constructor
  · exact hattached.trans h.attached
  · exact fun {q} => hunpaged q
  · rw [hfinished, hsubmitted]
    exact h.finished
  · rw [haccepted, hsubmitted]
    exact h.accepted
  · rw [haccepted]
    exact h.nodup
  · rw [hcalls, hsubmitted, hfinished, haccepted]
    exact h.calls
  · intro q j hj
    rw [howed] at hj
    rw [hcalls, hsubmitted, hfinished, haccepted]
    exact h.owed hj
  · intro p q j k hj hk
    rw [howed] at hj hk
    exact h.single hj hk
  · intro q
    rw [howed]
    exact h.once
  · intro q j
    have hslots : t.slots q j = s.slots q j := by simp only [slots, hcalls]
    have hold := h.count q j
    have hsame := hcount q j
    rw [howed, hslots]
    omega

/-- Steps that touch neither the calls nor the jobs. -/
theorem congr (h : Accounted s) (hcalls : t.calls = s.calls)
    (hsubmitted : t.submitted = s.submitted)
    (haccepted : t.accepted = s.accepted) (hattached : t.attached = s.attached)
    (hfinished : t.finished = s.finished)
    (hqueue : ∀ q, (s.queue q).SameJobs (t.queue q)) : Accounted t := by
  refine h.moved hcalls hsubmitted haccepted hattached hfinished (fun q => (hqueue q).1)
    (fun q => (hqueue q).2.2.2 h.unpaged) fun q j => ?_
  rw [(hqueue q).2.1, (hqueue q).2.2.1]

theorem setWorker {x : Worker} (h : Accounted s) : Accounted (s.setWorker w x) :=
  h.congr rfl rfl rfl rfl rfl fun _ => ⟨rfl, rfl, rfl, fun h => h⟩

theorem setQueue {x : Queue} (h : Accounted s) (hx : (s.queue q).SameJobs x) :
    Accounted (s.setQueue q x) := by
  refine h.congr rfl rfl rfl rfl rfl fun p => ?_
  rw [queue_setQueue]
  split
  · next hp => exact hp ▸ hx
  · exact ⟨rfl, rfl, rfl, fun h => h⟩

theorem resolveWorker {direct : Bool} (h : Accounted s) :
    Accounted (s.resolveWorker c key direct).1 := by
  rw [resolveWorker_eq]
  exact h.congr rfl rfl rfl rfl rfl fun _ => ⟨rfl, rfl, rfl, fun h => h⟩

theorem dropWorker (h : Accounted s) : Accounted (s.dropWorker key w) := by
  rw [dropWorker_eq]
  exact h.congr rfl rfl rfl rfl rfl fun _ => ⟨rfl, rfl, rfl, fun h => h⟩

theorem openQueue (hb : Blank s) (h : Accounted s) :
    Accounted (s.openQueue w key).1 := by
  unfold Registry.openQueue
  split
  · exact h
  · refine h.congr rfl rfl rfl rfl rfl fun p => ?_
    rw [queue_newQueue]
    split
    · next hp =>
      rw [hb hp.ge]
      exact ⟨rfl, rfl, rfl, fun h => h⟩
    · exact ⟨rfl, rfl, rfl, fun h => h⟩

theorem onIdle (h : Accounted s) : Accounted (s.onIdle q) := by
  simp only [Registry.onIdle]
  split
  · exact h.setQueue ⟨rfl, rfl, rfl, fun h => h⟩
  · split <;> exact h.setWorker.setQueue ⟨rfl, rfl, rfl, fun h => h⟩

/-- A job whose call has no slot yet is not owed by any queue. -/
theorem not_owed (h : Accounted s) (hcall : s.calls.lookup id = some call)
    (hgranted : call.granted = false) : ∀ {q j}, j ∈ (s.queue q).owed → j.id ≠ id := by
  intro q j hj hid
  obtain ⟨_, _, hfrom⟩ := h.owed hj
  rcases hfrom with hacc | ⟨other, hother, _, hgr⟩
  · exact (h.calls hcall).2.2.2 j hacc hid
  · rw [hid, hcall] at hother
    cases hother
    rw [hgranted] at hgr
    cases hgr

theorem slots_eq_zero (hcall : s.calls.lookup j.id = some call) (hgranted : call.granted = false) :
    s.slots q j = 0 := by
  unfold slots
  rw [hcall, if_neg]
  rintro ⟨⟩
  cases hgranted

theorem slots_reserved (hcall : s.calls.lookup job.id = some call)
    (hgranted : call.granted = false) :
    (s.setCall job.id (.reserved job q)).slots p j =
      s.slots p j + if job = j ∧ q = p then 1 else 0 := by
  by_cases hj : j.id = job.id
  · have hzero : s.slots p j = 0 := slots_eq_zero (hj ▸ hcall) hgranted
    rw [hzero, zero_add]
    simp only [slots, lookup_setCall, if_pos hj, Option.some.injEq, Call.reserved.injEq]
  · have hne : job ≠ j := fun hjob => hj (hjob ▸ rfl)
    simp only [slots, lookup_setCall, if_neg hj, hne, false_and, if_false, add_zero]

theorem slots_handed (hcall : s.calls.lookup job.id = some (.reserved job q)) :
    s.slots p j =
      (s.setCall job.id (.handed job)).slots p j + if job = j ∧ q = p then 1 else 0 := by
  by_cases hj : j.id = job.id
  · have hlook : s.calls.lookup j.id = some (.reserved job q) := hj ▸ hcall
    simp only [slots, lookup_setCall, hlook, if_pos hj, Option.some.injEq, Call.reserved.injEq,
      reduceCtorEq, if_false, zero_add]
  · have hne : job ≠ j := fun hjob => hj (hjob ▸ rfl)
    simp only [slots, lookup_setCall, if_neg hj, hne, false_and, if_false, add_zero]

/-- A call without a slot comes, moves on or goes, and no queue owes its job. -/
theorem recalled {calls : Assoc String Call} {submitted : List String} (h : Accounted s)
    (hsubmitted : ∀ i ∈ s.submitted, i ∈ submitted)
    (hother : ∀ i, i ≠ id → calls.lookup i = s.calls.lookup i)
    (hfree : ∀ {q j}, j ∈ (s.queue q).owed → j.id ≠ id)
    (hcall : ∀ call, calls.lookup id = some call → call.granted = false ∧ call.job.id = id ∧
      id ∈ submitted ∧ id ∉ s.finished ∧ ∀ j ∈ s.accepted, j.id ≠ id) :
    Accounted { s with calls, submitted } where
  __ := h
  finished hid := hsubmitted _ (h.finished hid)
  accepted hj := hsubmitted _ (h.accepted hj)
  calls {i call} hi := by
    by_cases hid : i = id
    · subst hid
      exact (hcall call hi).2
    · obtain ⟨hjob, hsub, hrest⟩ := h.calls ((hother i hid).symm.trans hi)
      exact ⟨hjob, hsubmitted _ hsub, hrest⟩
  owed {q j} hj := by
    dsimp only
    rw [hother j.id (hfree hj)]
    exact ⟨hsubmitted _ (h.owed hj).1, (h.owed hj).2⟩
  count q j := by
    have hcount := h.count q j
    by_cases hid : j.id = id
    · have hnone : (s.queue q).owed.count j = 0 := List.count_eq_zero.mpr fun hj => hfree hj hid
      have hnot : calls.lookup j.id ≠ some (.reserved j q) := fun hlook =>
        absurd (hcall _ (hid ▸ hlook)).1 (by simp [Call.granted])
      rw [slots, if_neg hnot]
      dsimp only
      omega
    · rw [slots, hother j.id hid]
      exact hcount

theorem setCall {old new : Call} (h : Accounted s) (hold : s.calls.lookup id = some old)
    (hjob : new.job = old.job) (hgranted : old.granted = false) (hgranted' : new.granted = false) :
    Accounted (s.setCall id new) := by
  refine h.recalled (fun _ hi => hi) (fun i hi => lookup_setCall.trans (if_neg hi))
    (h.not_owed hold hgranted) fun call hcall => ?_
  obtain rfl := Option.some.inj ((lookup_setCall.trans (if_pos rfl)).symm.trans hcall)
  exact ⟨hgranted', hjob ▸ h.calls hold⟩

theorem submit (h : Accounted s) (hfresh : job.id ∉ s.submitted) :
    Accounted ({ s with submitted := job.id :: s.submitted }.setCall job.id (.start job)) := by
  refine h.recalled (fun _ => List.mem_cons_of_mem _)
    (fun i hi => lookup_setCall.trans (if_neg hi)) (fun hj hid => hfresh (hid ▸ (h.owed hj).1))
    fun call hcall => ?_
  obtain rfl := Option.some.inj ((lookup_setCall.trans (if_pos rfl)).symm.trans hcall)
  exact ⟨rfl, rfl, List.mem_cons_self, fun hfin => hfresh (h.finished hfin),
    fun j hj hid => hfresh (hid ▸ h.accepted hj)⟩

/-- Admission refuses a job before any queue owes it. -/
theorem endCall (h : Accounted s) (hcall : s.calls.lookup id = some call)
    (hgranted : call.granted = false) : Accounted (s.endCall id) := by
  refine h.recalled (fun _ hi => hi) (fun i hi => lookup_endCall.trans (if_neg hi))
    (h.not_owed hcall hgranted) fun call' hcall' => ?_
  cases (lookup_endCall.trans (if_pos rfl)).symm.trans hcall'

theorem reserve (h : Accounted s) (hcall : s.calls.lookup id = some call) (hjob : call.job = job)
    (hgranted : call.granted = false) :
    Accounted ((s.setQueue q { s.queue q with owed := job :: (s.queue q).owed }).setCall job.id
      (.reserved job q)) := by
  obtain ⟨hid, hsub, hfin, hacc⟩ := h.calls hcall
  rw [hjob] at hid
  subst hid
  have hfree : ∀ {p j}, j ∈ (s.queue p).owed → j.id ≠ job.id := h.not_owed hcall hgranted
  have hqueue : ∀ p, (((s.setQueue q { s.queue q with owed := job :: (s.queue q).owed }).setCall
      job.id (.reserved job q)).queue p) = { s.queue p with
        owed := if p = q then job :: (s.queue p).owed else (s.queue p).owed } := by
    intro p
    refine queue_setQueue.trans ?_
    split
    · next hpq => rw [hpq]
    · rfl
  have hmem : ∀ {p j}, j ∈ (if p = q then job :: (s.queue p).owed else (s.queue p).owed) →
      j = job ∧ p = q ∨ j ∈ (s.queue p).owed := by
    intro p j hj
    split at hj
    · next hpq => exact (List.mem_cons.mp hj).imp_left fun hjj => ⟨hjj, hpq⟩
    · exact Or.inr hj
  refine { h with unpaged := ?_, calls := ?_, owed := ?_, single := ?_, once := ?_, count := ?_ }
  · intro p
    rw [hqueue]
    exact h.unpaged
  · intro id' call' hcall'
    rw [lookup_setCall] at hcall'
    split at hcall'
    · next hid =>
      cases hcall'
      exact ⟨hid.symm, hid ▸ hsub, hid ▸ hfin, hid ▸ hacc⟩
    · exact h.calls hcall'
  · intro p j hj
    rw [hqueue] at hj
    rcases hmem hj with ⟨rfl, _⟩ | hj
    · exact ⟨hsub, hfin, Or.inr ⟨_, lookup_setCall.trans (if_pos rfl), rfl, rfl⟩⟩
    · rw [lookup_setCall, if_neg (hfree hj)]
      exact h.owed hj
  · intro p p' j k hj hk hjk
    rw [hqueue] at hj hk
    rcases hmem hj with ⟨hjob', hp⟩ | hj' <;> rcases hmem hk with ⟨hkob, hp'⟩ | hk'
    · exact ⟨hp.trans hp'.symm, hjob'.trans hkob.symm⟩
    · exact absurd (hjob' ▸ hjk).symm (hfree hk')
    · exact absurd (hkob ▸ hjk) (hfree hj')
    · exact h.single hj' hk' hjk
  · intro p
    rw [hqueue]
    dsimp only
    split
    · exact List.nodup_cons.mpr ⟨fun hj => hfree hj rfl, h.once⟩
    · exact h.once
  · intro p j
    have hslots : ((s.setQueue q { s.queue q with owed := job :: (s.queue q).owed }).setCall job.id
        (.reserved job q)).slots p j = s.slots p j + if job = j ∧ q = p then 1 else 0 :=
      slots_reserved hcall hgranted
    have hold := h.count p j
    rw [hqueue, hslots]
    dsimp only
    by_cases hp : p = q
    · subst hp
      simp only [if_true, List.count_cons, beq_iff_eq, and_true]
      omega
    · simp only [if_neg hp, Ne.symm hp, and_false, if_false]
      omega

/-- The job of a call that has its slot is the only one of its id that a queue owes. -/
theorem eq_of_granted (h : Accounted s) (hcall : s.calls.lookup j.id = some call)
    (hj : j ∈ (s.queue q).owed) : call.job = j := by
  rcases (h.owed hj).2.2 with hacc | ⟨other, hother, hjob, _⟩
  · exact absurd rfl ((h.calls hcall).2.2.2 j hacc)
  · rw [hcall] at hother
    cases hother
    exact hjob

theorem handoff (h : Accounted s) (hcall : s.calls.lookup id = some (.reserved job q)) :
    Accounted ((s.setQueue q { s.queue q with cmds := (s.queue q).cmds ++ [job] }).setCall job.id
      (.handed job)) := by
  obtain rfl : job.id = id := (h.calls hcall).1
  have hqueue : ∀ p, (((s.setQueue q { s.queue q with cmds := (s.queue q).cmds ++ [job] }).setCall
      job.id (.handed job)).queue p) = { s.queue p with
        cmds := if p = q then (s.queue p).cmds ++ [job] else (s.queue p).cmds } := by
    intro p
    refine queue_setQueue.trans ?_
    split
    · next hpq => rw [hpq]
    · rfl
  refine { h with unpaged := ?_, calls := ?_, owed := ?_, single := ?_, once := ?_, count := ?_ }
  · intro p
    rw [hqueue]
    exact h.unpaged
  · intro id' call' hcall'
    rw [lookup_setCall] at hcall'
    split at hcall'
    · next hid =>
      cases hcall'
      exact hid ▸ h.calls hcall
    · exact h.calls hcall'
  · intro p j hj
    rw [hqueue] at hj
    obtain ⟨hsub, hfin, hfrom⟩ := h.owed hj
    refine ⟨hsub, hfin, ?_⟩
    rw [lookup_setCall]
    split
    · next hid =>
      have hlook : s.calls.lookup j.id = some (.reserved job q) := hid ▸ hcall
      have hjob : job = j := h.eq_of_granted hlook hj
      exact Or.inr ⟨_, rfl, hjob, rfl⟩
    · exact hfrom
  · intro p p' j k hj hk
    rw [hqueue] at hj hk
    exact h.single hj hk
  · intro p
    rw [hqueue]
    exact h.once
  · intro p j
    -- what leaves the call's slot arrives in the buffer
    have hslots : s.slots p j = ((s.setQueue q { s.queue q with
        cmds := (s.queue q).cmds ++ [job] }).setCall job.id (.handed job)).slots p j +
          if job = j ∧ q = p then 1 else 0 := slots_handed hcall
    have hold := h.count p j
    rw [hslots] at hold
    rw [hqueue]
    dsimp only
    by_cases hp : p = q
    · subst hp
      simp only [if_true, List.count_append, List.count_singleton, beq_iff_eq, and_true] at hold ⊢
      omega
    · simp only [if_neg hp, Ne.symm hp, and_false, if_false] at hold ⊢
      omega

theorem account (h : Accounted s) (hcall : s.calls.lookup id = some (.handed job)) :
    Accounted ({ s with accepted := job :: s.accepted, users := users }.endCall id) := by
  obtain ⟨rfl, hsub, hfin, hacc⟩ : job.id = id ∧ _ := h.calls hcall
  refine { h with accepted := ?_, nodup := ?_, calls := ?_, owed := ?_, count := ?_ }
  · intro j hj
    rcases List.mem_cons.mp hj with rfl | hj
    · exact hsub
    · exact h.accepted hj
  · refine List.nodup_cons.mpr ⟨?_, h.nodup⟩
    intro hmem
    obtain ⟨j, hj, hid⟩ := List.mem_map.mp hmem
    exact hacc j hj hid
  · intro id' call' hcall'
    rw [lookup_endCall] at hcall'
    split at hcall'
    · cases hcall'
    · next hne =>
      obtain ⟨hjob, hsub', hfin', hacc'⟩ := h.calls hcall'
      refine ⟨hjob, hsub', hfin', fun j hj => ?_⟩
      rcases List.mem_cons.mp hj with rfl | hj
      · exact Ne.symm hne
      · exact hacc' j hj
  · intro q j hj
    obtain ⟨hsub', hfin', hfrom⟩ := h.owed hj
    refine ⟨hsub', hfin', ?_⟩
    rw [lookup_endCall]
    split
    · next hid =>
      have hlook : s.calls.lookup j.id = some (.handed job) := hid ▸ hcall
      have hjob : job = j := h.eq_of_granted hlook hj
      exact Or.inl (hjob ▸ List.mem_cons_self)
    · exact hfrom.imp_left (List.mem_cons_of_mem _)
  · intro q j
    refine (h.count q j).trans ?_
    by_cases hid : j.id = job.id
    · have hlook : s.calls.lookup j.id = some (.handed job) := hid ▸ hcall
      simp only [slots, lookup_endCall, if_pos hid, hlook, Option.some.injEq,
        reduceCtorEq, if_false]
      rfl
    · simp only [slots, lookup_endCall, if_neg hid]
      rfl

theorem take {rest : List Job} {left : Bool} (h : Accounted s)
    (hcmds : (s.queue q).cmds = job :: rest) :
    Accounted (s.setQueue q (s.accept (s.queue q) job rest left)) := by
  have hcount := h.count q job
  rw [hcmds, List.count_cons_self] at hcount
  have hle : (s.queue q).owed.count job ≤ 1 := List.nodup_iff_count_le_one.mp h.once job
  have howed : job ∈ (s.queue q).owed := List.count_pos_iff.mp (by omega)
  have hheld : job ∉ (s.queue q).held := by
    intro hmem
    have := List.count_pos_iff.mpr hmem
    omega
  have haccept : s.accept (s.queue q) job rest left = { s.queue q with
      cmds := rest
      held := job :: (s.queue q).held
      paged := (s.queue q).paged.erase job } := by
    simp only [accept, if_neg hheld, h.unpaged.1, Bool.false_and, Bool.false_eq_true, if_false,
      h.unpaged.2.2, false_and]
  rw [haccept]
  refine h.moved rfl rfl rfl rfl rfl (fun p => ?_) (fun p => ?_) fun p j => ?_ <;>
    rw [queue_setQueue] <;> split
  · next hp => rw [hp]
  · rfl
  · exact h.unpaged (q := q)
  · exact h.unpaged
  · next hp =>
    dsimp only
    rw [hp, hcmds, List.count_cons, List.count_cons]
    omega
  · rfl

/-- A job finishes after its call has returned. -/
theorem finish (h : Accounted s) (hjob : job ∈ (s.queue q).held)
    (hcall : s.calls.lookup job.id = none) :
    job ∈ s.accepted ∧ job.id ∉ s.finished ∧ Accounted (s.settle q job) := by
  have hheld := List.count_pos_iff.mpr hjob
  have howed : job ∈ (s.queue q).owed := by
    have := h.count q job
    exact List.count_pos_iff.mp (by omega)
  obtain ⟨hsub, hfin, hfrom⟩ := h.owed howed
  have hacc : job ∈ s.accepted := by
    rcases hfrom with hacc | ⟨call, hcall', _⟩
    · exact hacc
    · rw [hcall] at hcall'
      cases hcall'
  have hqueue : ∀ p, (s.settle q job).queue p = { s.queue p with
      owed := if p = q then (s.queue p).owed.erase job else (s.queue p).owed
      spilled := if p = q then (s.queue p).spilled.erase job else (s.queue p).spilled
      held := if p = q then (s.queue p).held.erase job else (s.queue p).held
      paged := if p = q then (s.queue p).paged.erase job else (s.queue p).paged } := by
    intro p
    refine queue_setQueue.trans ?_
    split
    · next hpq => rw [hpq]
    · rfl
  have hleft : ∀ {p j}, j ∈ ((s.settle q job).queue p).owed →
      j ∈ (s.queue p).owed ∧ j.id ≠ job.id := by
    intro p j hj
    rw [hqueue] at hj
    dsimp only at hj
    split at hj
    · next hp =>
      refine ⟨List.mem_of_mem_erase hj, fun hid => ?_⟩
      have heq := (h.single (List.mem_of_mem_erase hj) howed hid).2
      rw [heq] at hj
      exact h.once.not_mem_erase hj
    · next hp => exact ⟨hj, fun hid => hp (h.single hj howed hid).1⟩
  refine ⟨hacc, hfin, { h with
    unpaged := ?_, finished := ?_, calls := ?_, owed := ?_, single := ?_, once := ?_
    count := ?_ }⟩
  · intro p
    rw [hqueue]
    exact h.unpaged
  · intro id hid
    rcases List.mem_cons.mp hid with rfl | hid
    · exact hsub
    · exact h.finished hid
  · intro id' call hcall'
    obtain ⟨hjob', hsub', hfin', hacc'⟩ := h.calls hcall'
    refine ⟨hjob', hsub', ?_, hacc'⟩
    intro hmem
    rcases List.mem_cons.mp hmem with rfl | hmem
    · cases hcall.symm.trans hcall'
    · exact hfin' hmem
  · intro p j hj
    obtain ⟨hj, hne⟩ := hleft hj
    obtain ⟨hsub', hfin', hfrom'⟩ := h.owed hj
    exact ⟨hsub', List.not_mem_cons_of_ne_of_not_mem hne hfin', hfrom'⟩
  · intro p p' j k hj hk
    exact h.single (hleft hj).1 (hleft hk).1
  · intro p
    rw [hqueue]
    dsimp only
    split
    · exact h.once.erase job
    · exact h.once
  · intro p j
    rw [hqueue]
    have hold := h.count p j
    dsimp only
    change _ = s.slots p j + _ + _
    split
    · next hp =>
      rw [hp] at hold ⊢
      rw [List.count_erase, List.count_erase]
      split
      · next heq =>
        obtain rfl : job = j := by simpa using heq
        omega
      · omega
    · exact hold

end Accounted

theorem accounted_step (hb : Blank s) (h : Accounted s) (hok : Orderly s e)
    (hstep : Stepped c s e t) : Accounted t := by
  cases hstep with
  | submit hfresh => exact h.submit hfresh
  | @resolve id job hcall =>
    have hlook : (s.resolveWorker c (c.workerKey job) false).1.calls.lookup id =
        some (.start job) := by
      rw [resolveWorker_eq]
      exact hcall
    exact h.resolveWorker.setCall hlook rfl rfl rfl
  | refuse hcall =>
    obtain rfl := (h.calls hcall).1
    exact h.setCall hcall rfl rfl rfl
  | @grant id _ job w hcall =>
    have hcalls : (s.openQueue w (c.queueKeyLocked (s.worker w).accountQueueMode job)).1.calls =
        s.calls := by
      unfold openQueue
      split <;> rfl
    exact (h.openQueue hb).reserve (hcalls ▸ hcall) rfl rfl
  | reject hcall =>
    obtain rfl := (h.calls hcall).1
    exact h.endCall hcall rfl
  | handoff hcall => exact h.handoff hcall
  | account hcall => exact h.account hcall
  | @dropStale id job w hcall =>
    have hlook : (s.dropWorker (c.workerKey job) w).calls.lookup id = some (.refused job w) := by
      rw [dropWorker_eq]
      exact hcall
    exact h.dropWorker.setCall hlook rfl rfl rfl
  | workerFor => exact h.resolveWorker
  | mode => exact h.setWorker
  | leftInFlight => exact h.congr rfl rfl rfl rfl rfl fun _ => ⟨rfl, rfl, rfl, fun h => h⟩
  | attach => exact hok.elim
  | paged _ _ hspill => cases h.unpaged.1.symm.trans hspill
  | elapse => exact h.setQueue ⟨rfl, rfl, rfl, fun hx => ⟨hx.1, hx.2.1, rfl⟩⟩
  | take _ _ hcmds => exact h.take hcmds
  | load _ _ hspill => cases h.unpaged.1.symm.trans hspill
  | finish _ _ hjob => exact (h.finish hjob hok).2.2
  | expire _ _ hspill => cases h.unpaged.1.symm.trans hspill
  | exhaust => exact h.setQueue ⟨rfl, rfl, rfl, fun hx => ⟨rfl, hx.2⟩⟩
  | takeSpills =>
    refine h.setQueue ⟨rfl, rfl, rfl, fun hx => ⟨?_, rfl, hx.2.2⟩⟩
    rw [hx.1, hx.2.1]
    rfl
  | idle | check | recheck => exact h.setQueue ⟨rfl, rfl, rfl, fun h => h⟩
  | onIdle => exact h.onIdle
  | notify =>
    refine h.dropWorker.setQueue ?_
    rw [dropWorker_eq]
    exact ⟨rfl, rfl, rfl, fun h => h⟩

/-- The load with one more job, or one more webhook delivery, of the job's kind. -/
def Load.plus (load : UserLoad) (job : Job) : UserLoad :=
  if job.isWebhookDelivery then { load with webhooks := load.webhooks + 1 }
  else { load with jobs := load.jobs + 1 }

theorem Load.plus_ne {load : UserLoad} : Load.plus load job ≠ {} := by
  unfold plus
  split <;> simp

theorem lookup_add :
    (users.add job).lookup user =
      if user = job.userID then some (Load.plus (users.load job.userID) job)
      else users.lookup user :=
  Assoc.lookup_insert_ite

/-- Counting off what was counted gives back the load there was, and no entry if that is nothing. -/
theorem lookup_done {load : UserLoad}
    (hload : users.lookup job.userID = some (Load.plus load job)) :
    (users.done job).lookup user =
      if user = job.userID then (if load = {} then none else some load)
      else users.lookup user := by
  have hleft : (if job.isWebhookDelivery then
        { Load.plus load job with webhooks := (Load.plus load job).webhooks - 1 }
      else { Load.plus load job with jobs := (Load.plus load job).jobs - 1 }) = load := by
    unfold Load.plus
    split <;> simp
  simp only [UserLoads.done, hload, hleft]
  by_cases hzero : load = {}
  · subst hzero
    simp [Assoc.lookup_erase_ite]
  · rw [if_neg hzero, if_neg]
    · exact Assoc.lookup_insert_ite
    · rintro ⟨hjobs, hwebhooks⟩
      apply hzero
      cases load
      simp_all

/-- The tracker has what is expected for each user, and no entry where that is nothing. -/
def Counted (s : Registry) : Prop :=
  ∀ user, s.users.lookup user = if s.expected user = {} then none else some (s.expected user)

theorem Counted.load (h : Counted s) : s.users.load user = s.expected user := by
  unfold UserLoads.load
  rw [h user]
  split
  · next hzero => exact hzero.symm
  · rfl

theorem Counted.congr (h : Counted s) (haccepted : t.accepted = s.accepted)
    (hattached : t.attached = s.attached) (hfinished : t.finished = s.finished)
    (husers : t.users = s.users) : Counted t := by
  have hexpected : ∀ user, t.expected user = s.expected user := by
    intro user
    simp only [expected, outstanding, haccepted, hattached, hfinished]
  intro user
  rw [husers, hexpected]
  exact h user

theorem outstanding_account {webhook : Bool} (hfin : job.id ∉ s.finished) :
    ({ s with accepted := job :: s.accepted, users := users }.endCall id).outstanding user webhook =
      s.outstanding user webhook +
        if job.userID = user ∧ job.isWebhookDelivery = webhook then 1 else 0 := by
  refine List.countP_cons.trans (congrArg (s.outstanding user webhook + ·) ?_)
  simp [endCall, hfin]

/-- The ids of accepted jobs differ, so that one job and no other is counted off. -/
theorem outstanding_settle {webhook : Bool} (hnodup : (s.accepted.map Job.id).Nodup)
    (hattached : s.attached = []) (hacc : job ∈ s.accepted) (hfin : job.id ∉ s.finished) :
    s.outstanding user webhook = (s.settle q job).outstanding user webhook +
      if job.userID = user ∧ job.isWebhookDelivery = webhook then 1 else 0 := by
  have hperm := List.perm_cons_erase hacc
  have hother : ∀ j ∈ s.accepted.erase job, j.id ≠ job.id := by
    intro j hj hid
    have hids := (hperm.map Job.id).nodup_iff.mp hnodup
    exact (List.nodup_cons.mp hids).1 (hid ▸ List.mem_map_of_mem hj)
  have hrest : (s.accepted.erase job).countP (fun j => decide (j.userID = user ∧
      j.isWebhookDelivery = webhook ∧ j.id ∉ s.finished)) =
        (s.accepted.erase job).countP fun j => decide (j.userID = user ∧
          j.isWebhookDelivery = webhook ∧ j.id ∉ job.id :: s.finished) := by
    apply List.countP_congr
    intro j hj
    simp [hother j hj]
  have hattached' : (s.settle q job).attached = [] := hattached
  have hfinished' : (s.settle q job).finished = job.id :: s.finished := rfl
  have haccepted' : (s.settle q job).accepted = s.accepted := rfl
  simp only [outstanding, hattached, hattached', hfinished', haccepted', List.append_nil]
  rw [hperm.countP_eq, hperm.countP_eq, List.countP_cons, List.countP_cons, hrest]
  simp [hfin]

theorem expected_eq_plus
    (h : ∀ webhook, t.outstanding user webhook =
    s.outstanding user webhook + if job.userID = user ∧ job.isWebhookDelivery =
      webhook then 1 else 0) :
    t.expected user = if user = job.userID then Load.plus (s.expected user) job
      else s.expected user := by
  by_cases huser : user = job.userID
  · subst huser
    simp only [expected, h, Load.plus, if_true, true_and]
    cases job.isWebhookDelivery <;> rfl
  · simp only [expected, h, if_neg huser, Ne.symm huser, false_and, if_false, add_zero]

theorem Counted.account (h : Counted s) (hfin : job.id ∉ s.finished) :
    Counted ({ s with accepted := job :: s.accepted, users := s.users.add job }.endCall id) := by
  intro user
  rw [expected_eq_plus fun webhook => outstanding_account hfin]
  refine Eq.trans lookup_add ?_
  split
  · next huser => rw [if_neg Load.plus_ne, h.load, huser]
  · exact h user

theorem Counted.settle (h : Counted s) (hnodup : (s.accepted.map Job.id).Nodup)
    (hattached : s.attached = []) (hacc : job ∈ s.accepted) (hfin : job.id ∉ s.finished) :
    Counted (s.settle q job) := by
  have hplus : ∀ user, s.expected user =
      if user = job.userID then Load.plus ((s.settle q job).expected user) job
      else (s.settle q job).expected user :=
    fun user => expected_eq_plus fun webhook => outstanding_settle hnodup hattached hacc hfin
  have hload : s.users.lookup job.userID =
      some (Load.plus ((s.settle q job).expected job.userID) job) := by
    rw [h, hplus, if_pos rfl, if_neg Load.plus_ne]
  intro user
  refine Eq.trans (lookup_done hload) ?_
  split
  · next huser => rw [huser]
  · next huser => rw [h user, hplus user, if_neg huser]

theorem counted_step (ha : Accounted s) (h : Counted s) (hok : Orderly s e)
    (hstep : Stepped c s e t) : Counted t := by
  cases hstep with
  | @account id job hcall =>
    obtain ⟨rfl, _, hfin, _⟩ : job.id = id ∧ _ := ha.calls hcall
    exact h.account hfin
  | finish _ _ hjob =>
    obtain ⟨hacc, hfin, _⟩ := ha.finish hjob hok
    exact h.settle ha.nodup ha.attached hacc hfin
  | expire _ _ hspill => cases ha.unpaged.1.symm.trans hspill
  | attach => exact hok.elim
  | resolve | workerFor =>
    rw [resolveWorker_eq]
    exact h.congr rfl rfl rfl rfl
  | grant =>
    rw [grant_eq]
    exact h.congr rfl rfl rfl rfl
  | dropStale | notify =>
    rw [dropWorker_eq]
    exact h.congr rfl rfl rfl rfl
  | onIdle =>
    rw [onIdle_eq]
    exact h.congr rfl rfl rfl rfl
  | _ => exact h.congr rfl rfl rfl rfl

/-- In every run in which jobs finish after their enqueue calls have returned and nothing is
attached on disk, each user's entry has the numbers of the user's unfinished jobs and webhook
deliveries, and a user with none has no entry. -/
theorem user_load_exact {es : List Event} (hok : Trace.Along (step c) Orderly {} es)
    (hrun : Trace.exec (step c) {} es = some s) (user : String) :
    s.users.lookup user =
      if s.outstanding user false = 0 ∧ s.outstanding user true = 0 then none
      else some { jobs := s.outstanding user false, webhooks := s.outstanding user true } := by
  have hinv : ((Sound s ∧ Blank s) ∧ Accounted s) ∧ Counted s := by
    refine Trace.exec_invariant (I := fun s => ((Sound s ∧ Blank s) ∧ Accounted s) ∧ Counted s)
      ?_ ⟨⟨⟨sound_init, fun _ => rfl⟩, accounted_init⟩, fun _ => rfl⟩ hok hrun
    rintro s t e ⟨⟨⟨hs, hb⟩, ha⟩, hc⟩ hok hstep
    have hstep := stepped_of_step hstep
    exact ⟨⟨⟨sound_step hs hstep, blank_step hs hb hstep⟩, accounted_step hb ha hok hstep⟩,
      counted_step ha hc hok hstep⟩
  rw [hinv.2 user]
  simp only [expected, UserLoad.mk.injEq]

def deliveryB : Job := { id := "b", userID := "u", kind := .webhookDelivery }

/-- A job finishes and a webhook delivery does not; each had its call return first. -/
def tracked : List Event :=
  [.submit jobA, .resolve "a", .reserve "a" none, .handoff "a", .take 0 false, .account "a",
    .submit deliveryB, .resolve "b", .reserve "b" none, .handoff "b", .account "b", .finish 0 "a"]

theorem tracked_load : ∃ s, Trace.exec (step oneHost) {} tracked = some s ∧
    s.outstanding "u" false = 0 ∧ s.outstanding "u" true = 1 ∧
    s.users.lookup "u" = some { jobs := 0, webhooks := 1 } ∧ s.users.lookup "v" = none := by
  have hrun : ∃ s, Trace.exec (step oneHost) {} tracked = some s ∧
      (s.outstanding "u" false = 0 ∧ s.outstanding "u" true = 1) ∧
      s.outstanding "v" false = 0 ∧ s.outstanding "v" true = 0 := by
    decide +kernel
  obtain ⟨s, hrun, ⟨hjobs, hwebhooks⟩, hv⟩ := hrun
  have hok : Trace.Along (step oneHost) Orderly {} tracked := by decide +kernel
  have hu := user_load_exact hok hrun "u"
  have hv' := user_load_exact hok hrun "v"
  rw [hjobs, hwebhooks] at hu
  rw [if_pos hv] at hv'
  exact ⟨s, hrun, hjobs, hwebhooks, hu, hv'⟩

/-- The queue finishes the job before its call has counted it, and the count stays; jobs attached on
disk are not counted at all. In both states no call is under way. -/
theorem late_count_leaks :
    (∃ s, Trace.exec (step oneHost) {} [.submit jobA, .resolve "a", .reserve "a" none, .handoff "a",
        .take 0 false, .finish 0 "a", .account "a"] = some s ∧ s.calls.keys = [] ∧
      (s.outstanding "u" false = 0 ∧ s.outstanding "u" true = 0) ∧
      s.users.lookup "u" = some { jobs := 1, webhooks := 0 }) ∧
    ∃ s, Trace.exec (step oneHost) {} [.submit jobA, .resolve "a", .reserve "a" none, .handoff "a",
        .account "a", .take 0 false, .attach 0 [jobB], .finish 0 "a"] = some s ∧ s.calls.keys = [] ∧
      s.outstanding "u" false = 1 ∧ s.users.lookup "u" = none := by
  constructor <;> decide +kernel

end Aquifer.Registry
