import Aquifer.Dispatch.RegistrySteps

/-! Queues retire and workers stop while enqueue calls are under way: a job that has been handed
over is never left in a queue that nobody serves. -/
namespace Aquifer.Registry

variable {c : Routing} {s t : Registry} {e : Event} {q w : Nat} {job : Job} {id : String}
  {key : String}

/-- The registry has the one worker of a key that has not stopped, and a worker that has stopped has
no queues. -/
structure Workers (s : Registry) : Prop where
  entry : ∀ {k w}, s.workers.lookup k = some w → w < s.workerCount ∧ (s.worker w).key = k
  current : ∀ {w}, w < s.workerCount → (s.worker w).stopped = false →
    s.workers.lookup (s.worker w).key = some w
  empty : ∀ {w}, w < s.workerCount → (s.worker w).stopped = true → (s.worker w).queues = ∅

namespace Workers

theorem of_eq (h : Workers s) (hmap : t.workers = s.workers) (hworker : t.worker = s.worker)
    (hcount : t.workerCount = s.workerCount) : Workers t where
  entry hk := by
    rw [hmap] at hk
    rw [hworker, hcount]
    exact h.entry hk
  current hw hlive := by
    rw [hcount] at hw
    rw [hworker] at hlive
    rw [hmap, hworker]
    exact h.current hw hlive
  empty hw hstop := by
    rw [hcount] at hw
    rw [hworker] at hstop ⊢
    exact h.empty hw hstop

theorem resolveWorker {direct : Bool} (h : Workers s) :
    Workers (s.resolveWorker c key direct).1 := by
  unfold Registry.resolveWorker
  split
  · exact h
  · next hnone =>
    constructor
    · intro k v hk
      replace hk : (s.workers.insert key s.workerCount).lookup k = some v := hk
      rw [Assoc.lookup_insert_ite] at hk
      split at hk
      · next hkey =>
        cases hk
        exact ⟨Nat.lt_succ_self _, by simp [hkey]⟩
      · obtain ⟨hv, hkey⟩ := h.entry hk
        exact ⟨hv.trans (Nat.lt_succ_self _), by simpa [hv.ne] using hkey⟩
    · intro v hv hlive
      rcases Nat.lt_succ_iff_lt_or_eq.mp hv with hv | rfl
      · rw [worker_newWorker, if_neg hv.ne] at hlive ⊢
        have hcur := h.current hv hlive
        have hne : (s.worker v).key ≠ key := by
          intro hkey
          rw [hkey, hnone] at hcur
          cases hcur
        exact (Assoc.lookup_insert_ite.trans (if_neg hne)).trans hcur
      · rw [worker_newWorker, if_pos rfl]
        exact AList.lookup_insert _
    · intro v hv hstop
      rcases Nat.lt_succ_iff_lt_or_eq.mp hv with hv | rfl
      · rw [worker_newWorker, if_neg hv.ne] at hstop ⊢
        exact h.empty hv hstop
      · rw [worker_newWorker, if_pos rfl]

/-- Dropping the entry of a worker that has stopped does not touch the current one. -/
theorem dropWorker (h : Workers s) (hstop : (s.worker w).stopped = true) :
    Workers (s.dropWorker key w) := by
  unfold Registry.dropWorker
  split
  · next hentry =>
    constructor
    · intro k v hk
      replace hk : (s.workers.erase key).lookup k = some v := hk
      rw [Assoc.lookup_erase_ite] at hk
      split at hk
      · cases hk
      · exact h.entry hk
    · intro v hv hlive
      have hcur := h.current hv hlive
      have hne : (s.worker v).key ≠ key := by
        intro hkey
        rw [hkey, hentry] at hcur
        cases hcur
        rw [hstop] at hlive
        cases hlive
      exact (Assoc.lookup_erase_ite.trans (if_neg hne)).trans hcur
    · exact h.empty
  · exact h

/-- A worker that keeps its key may stop once it has no queues, and may get queues while it runs. -/
theorem setWorker {x : Worker} (h : Workers s) (hkey : x.key = (s.worker w).key)
    (hlive : x.stopped = false → (s.worker w).stopped = false)
    (hempty : w < s.workerCount → x.stopped = true → x.queues = ∅) : Workers (s.setWorker w x) where
  entry {k v} hk := by
    obtain ⟨hv, hvk⟩ := h.entry hk
    refine ⟨hv, ?_⟩
    rw [worker_setWorker]
    split
    · next hvw => rw [hkey, ← hvw, hvk]
    · exact hvk
  current {v} hv hrun := by
    rw [worker_setWorker] at hrun ⊢
    split at hrun
    · next hvw =>
      rw [if_pos hvw, hkey, hvw]
      exact h.current (hvw ▸ hv) (hlive hrun)
    · next hvw =>
      rw [if_neg hvw]
      exact h.current hv hrun
  empty {v} hv hstop := by
    rw [worker_setWorker] at hstop ⊢
    split at hstop
    · next hvw =>
      rw [if_pos hvw]
      exact hempty (hvw ▸ hv) hstop
    · next hvw =>
      rw [if_neg hvw]
      exact h.empty hv hstop

theorem grant (h : Workers s) (hlive : (s.worker w).stopped = false) :
    Workers (s.grant c job w) := by
  suffices Workers (s.openQueue w (c.queueKeyLocked (s.worker w).accountQueueMode job)).1 from
    this.of_eq rfl rfl rfl
  unfold openQueue
  split
  · exact h
  · refine Workers.of_eq (h.setWorker (by rfl) ?_ ?_) rfl rfl rfl
    · exact fun hx => hx
    · intro _ hstop
      cases hlive.symm.trans hstop

/-- The worker stops with its last queue. -/
theorem onIdle (h : Workers s) : Workers (s.onIdle q) := by
  simp only [Registry.onIdle]
  split
  · exact h.of_eq rfl rfl rfl
  · next hidle =>
    rw [not_or, not_not] at hidle
    split
    · next hleft =>
      refine Workers.of_eq (h.setWorker (by rfl) ?_ fun _ _ => AList.ext hleft) rfl rfl rfl
      intro hx
      cases hx
    · refine Workers.of_eq (h.setWorker (by rfl) ?_ ?_) rfl rfl rfl
      · exact fun hx => hx
      · intro hw hstop
        have hk := hidle.1
        rw [h.empty hw hstop] at hk
        cases hk

end Workers

theorem registered_iff :
    s.registered q = true ↔ (s.worker (s.queue q).worker).queues.lookup (s.queue q).key = some q :=
  decide_eq_true_iff

theorem registered_congr (hqueues : (t.worker (t.queue q).worker).queues =
    (s.worker (s.queue q).worker).queues) (hkey : (t.queue q).key = (s.queue q).key) :
    t.registered q = s.registered q := by
  unfold registered
  rw [hqueues, hkey]

theorem registered_setQueue {x : Queue} {p : Nat} (hworker : x.worker = (s.queue q).worker)
    (hkey : x.key = (s.queue q).key) : (s.setQueue q x).registered p = s.registered p := by
  apply registered_congr
  · rw [queue_setQueue]
    split
    · next hpq => rw [hworker, hpq]; rfl
    · rfl
  · rw [queue_setQueue]
    split
    · next hpq => rw [hkey, hpq]
    · rfl

/-- What holds of the loop of a registered queue: it has not returned, and it will not return. -/
def Queue.Live (x : Queue) : Prop :=
  x.loop ≠ .notifying ∧ x.loop ≠ .returned ∧ (x.loop = .checking → x.backlog ≠ [] ∨ x.cmds ≠ [])

/-- A queue that owes a job is registered, and a registered queue's loop is there to serve it. -/
structure Queues (s : Registry) : Prop where
  owner : ∀ {q}, q < s.queueCount → (s.queue q).worker < s.workerCount
  entry : ∀ {w k q}, w < s.workerCount → (s.worker w).queues.lookup k = some q →
    q < s.queueCount ∧ (s.queue q).worker = w ∧ (s.queue q).key = k
  owed : ∀ {q}, q < s.queueCount → (s.queue q).owed ≠ [] → s.registered q = true
  live : ∀ {q}, q < s.queueCount → s.registered q = true → (s.queue q).Live
  stopped : ∀ {q}, q < s.queueCount → (s.queue q).loop = .notifying →
    (s.worker (s.queue q).worker).stopped = true

namespace Queues

theorem congr (h : Queues s) (hcount : t.workerCount = s.workerCount)
    (hworker : ∀ w, (t.worker w).queues = (s.worker w).queues ∧
      (t.worker w).stopped = (s.worker w).stopped)
    (hqueues : t.queueCount = s.queueCount) (hqueue : t.queue = s.queue) : Queues t := by
  have hreg : ∀ q, t.registered q = s.registered q := by
    intro q
    apply registered_congr <;> rw [hqueue]
    exact (hworker _).1
  constructor
  · intro q hq
    rw [hqueue, hcount]
    exact h.owner (hqueues ▸ hq)
  · intro w k q hw hk
    rw [(hworker w).1] at hk
    rw [hqueue, hqueues]
    exact h.entry (hcount ▸ hw) hk
  · intro q hq howed
    rw [hqueue] at howed
    exact (hreg q).trans (h.owed (hqueues ▸ hq) howed)
  · intro q hq hr
    rw [hqueue]
    exact h.live (hqueues ▸ hq) ((hreg q).symm.trans hr)
  · intro q hq hloop
    rw [hqueue] at hloop ⊢
    rw [(hworker _).2]
    exact h.stopped (hqueues ▸ hq) hloop

theorem of_eq (h : Queues s) (hcount : t.workerCount = s.workerCount)
    (hworker : t.worker = s.worker)
    (hqueues : t.queueCount = s.queueCount) (hqueue : t.queue = s.queue) : Queues t := by
  refine h.congr hcount ?_ hqueues hqueue
  intro w
  rw [hworker]
  exact ⟨rfl, rfl⟩

/-- One queue changes and keeps its place in its worker. -/
theorem setQueue {x : Queue} (h : Queues s) (hworker : x.worker = (s.queue q).worker)
    (hkey : x.key = (s.queue q).key)
    (howed : q < s.queueCount → x.owed ≠ [] → s.registered q = true)
    (hlive : q < s.queueCount → s.registered q = true → x.Live)
    (hstop : q < s.queueCount → x.loop = .notifying →
      (s.worker (s.queue q).worker).stopped = true) : Queues (s.setQueue q x) := by
  constructor
  · intro p hp
    rw [queue_setQueue]
    split
    · next hpq => exact hworker ▸ h.owner (hpq ▸ hp)
    · exact h.owner hp
  · intro w k p hw hk
    obtain ⟨hp, hpw, hpk⟩ := h.entry hw hk
    refine ⟨hp, ?_⟩
    rw [queue_setQueue]
    split
    · next hpq =>
      subst hpq
      exact ⟨hworker.trans hpw, hkey.trans hpk⟩
    · exact ⟨hpw, hpk⟩
  · intro p hp hx
    rw [registered_setQueue hworker hkey]
    rw [queue_setQueue] at hx
    split at hx
    · next hpq => exact hpq ▸ howed (hpq ▸ hp) hx
    · exact h.owed hp hx
  · intro p hp hr
    rw [registered_setQueue hworker hkey] at hr
    rw [queue_setQueue]
    split
    · next hpq => exact hlive (hpq ▸ hp) (hpq ▸ hr)
    · exact h.live hp hr
  · intro p hp hx
    rw [queue_setQueue] at hx ⊢
    split at hx
    · next hpq =>
      rw [if_pos hpq]
      exact hworker ▸ hstop (hpq ▸ hp) hx
    · next hpq =>
      rw [if_neg hpq]
      exact h.stopped hp hx

/-- In `run` and on the way out of it a queue may do anything but take on a debt. -/
theorem setQueue_run {x : Queue} (h : Queues s) (hworker : x.worker = (s.queue q).worker)
    (hkey : x.key = (s.queue q).key) (howed : x.owed ≠ [] → (s.queue q).owed ≠ [])
    (hloop : x.loop ≠ .notifying ∧ x.loop ≠ .checking ∧ x.loop ≠ .returned) :
    Queues (s.setQueue q x) := by
  obtain ⟨hnote, hcheck, hret⟩ := hloop
  apply h.setQueue hworker hkey
  · exact fun hq hx => h.owed hq (howed hx)
  · exact fun _ _ => ⟨hnote, hret, fun hx => absurd hx hcheck⟩
  · exact fun _ hx => absurd hx hnote

theorem settle (h : Queues s) (hloop : (s.queue q).loop = .running) : Queues (s.settle q job) := by
  refine Queues.of_eq (h.setQueue_run (q := q) (by rfl) (by rfl) ?_ ?_) rfl rfl rfl rfl
  · intro hx hnil
    exact hx (by simp [hnil])
  · simp [hloop]

theorem resolveWorker {direct : Bool} (h : Queues s) :
    Queues (s.resolveWorker c key direct).1 := by
  unfold Registry.resolveWorker
  split
  · exact h
  · -- the queues there are belong to older workers
    have hworker : ∀ {q}, q < s.queueCount → (s.newWorker c key direct).worker (s.queue q).worker =
        s.worker (s.queue q).worker := by
      intro q hq
      rw [worker_newWorker, if_neg (h.owner hq).ne]
    have hreg : ∀ {q}, q < s.queueCount →
        (s.newWorker c key direct).registered q = s.registered q := by
      intro q hq
      apply registered_congr
      · exact congrArg Worker.queues (hworker hq)
      · rfl
    constructor
    · exact fun hq => (h.owner hq).trans (Nat.lt_succ_self _)
    · intro v k q hv hk
      rw [worker_newWorker] at hk
      split at hk
      · simp at hk
      · next hne => exact h.entry (Nat.lt_of_le_of_ne (Nat.le_of_lt_succ hv) hne) hk
    · exact fun hq hx => (hreg hq).trans (h.owed hq hx)
    · exact fun hq hr => h.live hq ((hreg hq).symm.trans hr)
    · intro q hq hx
      exact (congrArg Worker.stopped (hworker hq)).trans (h.stopped hq hx)

theorem registered_of_lookup {k : String} (h : Queues s) (hw : w < s.workerCount)
    (hk : (s.worker w).queues.lookup k = some q) : s.registered q = true := by
  obtain ⟨_, hqw, hqk⟩ := h.entry hw hk
  rw [registered_iff, hqw, hqk]
  exact hk

theorem registered_newQueue {p : Nat} (hnone : (s.worker w).queues.lookup key = none)
    (hp : p < s.queueCount) :
    (s.newQueue w key).registered p = true ↔ s.registered p = true := by
  rw [registered_iff, registered_iff, queue_newQueue, if_neg hp.ne, worker_newQueue]
  split
  · next hpw =>
    rw [hpw]
    constructor
    · intro hk
      replace hk := Assoc.lookup_insert_ite.symm.trans hk
      split at hk
      · cases hk
        exact absurd hp (Nat.lt_irrefl _)
      · exact hk
    · intro hk
      have hne : (s.queue p).key ≠ key := by
        intro hkey
        rw [hkey, hnone] at hk
        cases hk
      exact (Assoc.lookup_insert_ite.trans (if_neg hne)).trans hk
  · rfl

theorem newQueue (h : Queues s) (hw : w < s.workerCount)
    (hnone : (s.worker w).queues.lookup key = none) : Queues (s.newQueue w key) := by
  constructor
  · intro p hp
    rw [queue_newQueue]
    split
    · exact hw
    · next hne => exact h.owner (Nat.lt_of_le_of_ne (Nat.le_of_lt_succ hp) hne)
  · intro v k p hv hk
    have hold : ∀ {v k p}, v < s.workerCount → (s.worker v).queues.lookup k = some p →
        p < s.queueCount + 1 ∧ ((s.newQueue w key).queue p).worker = v ∧
          ((s.newQueue w key).queue p).key = k := by
      intro v k p hv hk
      obtain ⟨hp, hpv, hpk⟩ := h.entry hv hk
      rw [queue_newQueue, if_neg hp.ne]
      exact ⟨hp.trans (Nat.lt_succ_self _), hpv, hpk⟩
    rw [worker_newQueue] at hk
    split at hk
    · next hvw =>
      replace hk := Assoc.lookup_insert_ite.symm.trans hk
      split at hk
      · next hkey =>
        cases hk
        rw [queue_newQueue, if_pos rfl]
        exact ⟨Nat.lt_succ_self _, hvw.symm, hkey.symm⟩
      · exact hold hv (hvw ▸ hk)
    · exact hold hv hk
  · intro p hp howed
    rw [queue_newQueue] at howed
    split at howed
    · exact absurd rfl howed
    · next hne =>
      have hp := Nat.lt_of_le_of_ne (Nat.le_of_lt_succ hp) hne
      exact (registered_newQueue hnone hp).mpr (h.owed hp howed)
  · intro p hp hr
    rw [queue_newQueue]
    split
    · simp [Queue.Live]
    · next hne =>
      have hp := Nat.lt_of_le_of_ne (Nat.le_of_lt_succ hp) hne
      exact h.live hp ((registered_newQueue hnone hp).mp hr)
  · intro p hp hloop
    rw [queue_newQueue] at hloop ⊢
    split at hloop
    · cases hloop
    · next hne =>
      rw [if_neg hne, worker_newQueue]
      have hstop := h.stopped (Nat.lt_of_le_of_ne (Nat.le_of_lt_succ hp) hne) hloop
      split
      · next hpw => exact hpw ▸ hstop
      · exact hstop

theorem openQueue (h : Queues s) (hw : w < s.workerCount) :
    Queues (s.openQueue w key).1 := by
  unfold Registry.openQueue
  split
  · exact h
  · next hnone => exact h.newQueue hw hnone

theorem lookup_openQueue :
    ((s.openQueue w key).1.worker w).queues.lookup key = some (s.openQueue w key).2 := by
  unfold Registry.openQueue
  split
  · next hsome => exact hsome
  · rw [worker_newQueue, if_pos rfl]
    exact AList.lookup_insert _

theorem grant (h : Queues s) (hw : w < s.workerCount) : Queues (s.grant c job w) := by
  have ho : Queues (s.openQueue w (c.queueKeyLocked (s.worker w).accountQueueMode job)).1 :=
    h.openQueue hw
  have hreg := ho.registered_of_lookup (hw.trans_le (Kept.openQueue : Kept True s _).workers)
    lookup_openQueue
  refine Queues.of_eq (ho.setQueue (by rfl) (by rfl) ?_ ?_ ?_) rfl rfl rfl rfl
  · exact fun _ _ => hreg
  · intro hq _
    obtain ⟨hnote, hret, _⟩ := ho.live hq hreg
    exact ⟨hnote, hret, fun _ => Or.inl (by simp [Queue.backlog])⟩
  · exact fun hq hloop => ho.stopped hq hloop

theorem registered_retire {x : Worker} {l : Loop} {p : Nat} (hreg : s.registered q = true)
    (hqueues : x.queues = (s.worker (s.queue q).worker).queues.erase (s.queue q).key) :
    ((s.setWorker (s.queue q).worker x).setQueue q { s.queue q with loop := l }).registered p =
      true ↔
      s.registered p = true ∧ p ≠ q := by
  have hplace : (s.setWorker (s.queue q).worker x).registered p = true ↔
      s.registered p = true ∧ p ≠ q := by
    rw [registered_iff] at hreg ⊢
    rw [registered_iff, worker_setWorker]
    change (if (s.queue p).worker = (s.queue q).worker then x
      else s.worker (s.queue p).worker).queues.lookup (s.queue p).key = some p ↔ _
    split
    · next hpw =>
      rw [hqueues, hpw, Assoc.lookup_erase_ite]
      by_cases hkey : (s.queue p).key = (s.queue q).key
      · rw [if_pos hkey, hkey, hreg]
        simpa using fun h : q = p => h.symm
      · rw [if_neg hkey]
        exact ⟨fun hk => ⟨hk, fun hpq => hkey (hpq ▸ rfl)⟩, And.left⟩
    · next hpw => exact ⟨fun hk => ⟨hk, fun hpq => hpw (hpq ▸ rfl)⟩, And.left⟩
  rw [registered_setQueue] <;> first | exact hplace | rfl

/-- A queue leaves its worker owing nothing; no other queue notices. -/
theorem retire {x : Worker} {l : Loop} (h : Queues s) (hreg : s.registered q = true)
    (howed : (s.queue q).owed = [])
    (hqueues : x.queues = (s.worker (s.queue q).worker).queues.erase (s.queue q).key)
    (hstop : (s.worker (s.queue q).worker).stopped = true → x.stopped = true)
    (hl : l = .notifying → x.stopped = true) :
    Queues ((s.setWorker (s.queue q).worker x).setQueue q { s.queue q with loop := l }) := by
  have hplace : ∀ p, ((s.setWorker (s.queue q).worker x).setQueue q
      { s.queue q with loop := l }).queue p =
        { s.queue p with loop := if p = q then l else (s.queue p).loop } := by
    intro p
    rw [queue_setQueue]
    split
    · next hpq => rw [hpq]
    · rfl
  have hworker : ∀ v, ((s.setWorker (s.queue q).worker x).setQueue q
      { s.queue q with loop := l }).worker v =
        if v = (s.queue q).worker then x else s.worker v := fun v => worker_setWorker
  constructor
  · intro p hp
    rw [hplace]
    exact h.owner hp
  · intro v k p hv hk
    rw [hplace]
    apply h.entry hv
    rw [hworker] at hk
    split at hk
    · next hvw =>
      rw [hqueues, Assoc.lookup_erase_ite] at hk
      split at hk
      · cases hk
      · exact hvw ▸ hk
    · exact hk
  · intro p hp hx
    rw [hplace] at hx
    refine (registered_retire hreg hqueues).mpr ⟨h.owed hp hx, ?_⟩
    intro hpq
    exact hx (hpq ▸ howed)
  · intro p hp hr
    obtain ⟨hr, hpq⟩ := (registered_retire hreg hqueues).mp hr
    rw [hplace, if_neg hpq]
    exact h.live hp hr
  · intro p hp hloop
    rw [hplace] at hloop ⊢
    rw [hworker]
    change (if (s.queue p).worker = (s.queue q).worker then x
      else s.worker (s.queue p).worker).stopped = true
    split
    · next hpw =>
      by_cases hpq : p = q
      · rw [if_pos hpq] at hloop
        exact hl hloop
      · rw [if_neg hpq] at hloop
        exact hstop (hpw ▸ h.stopped hp hloop)
    · next hpw =>
      have hpq : p ≠ q := fun hpq => hpw (hpq ▸ rfl)
      rw [if_neg hpq] at hloop
      exact h.stopped hp hloop

theorem onIdle (h : Queues s) (hq : q < s.queueCount) : Queues (s.onIdle q) := by
  simp only [Registry.onIdle]
  split
  · next hbusy =>
    refine h.setQueue (by rfl) (by rfl) ?_ ?_ ?_
    · exact fun _ hx => h.owed hq hx
    · intro _ hreg
      refine ⟨by simp, by simp, fun _ => ?_⟩
      exact hbusy.resolve_left (fun hne => hne (registered_iff.mp hreg))
    · intro _ hx
      cases hx
  · next hidle =>
    rw [not_or, not_or, not_not, not_not, not_not] at hidle
    obtain ⟨hk, hback, hcmds⟩ := hidle
    have howed : (s.queue q).owed = [] := (List.append_eq_nil_iff.mp hback).1
    split
    · exact h.retire (registered_iff.mpr hk) howed rfl (fun _ => rfl) fun _ => rfl
    · exact h.retire (registered_iff.mpr hk) howed rfl (fun hstop => hstop) fun hx => by cases hx

end Queues

/-- A job has finished, or a queue owes it and it has reached that queue. -/
def Served (s : Registry) (job : Job) : Prop :=
  job.id ∈ s.finished ∨ ∃ q < s.queueCount, job ∈ (s.queue q).owed ∧ (s.queue q).Within job

theorem Served.mono {ok : Prop} (hkept : Kept ok s t) (hok : ok) (h : Served s job) :
    Served t job := by
  rcases h with hfin | ⟨q, hq, howed, hin⟩
  · exact Or.inl (hkept.finished hfin)
  rcases (hkept.queue hq).owed job howed with hfin | ⟨howed', hin'⟩
  · exact Or.inl hfin
  · exact Or.inr ⟨q, hq.trans_le hkept.queues, howed', hin' hok hin⟩

/-- What an enqueue call can rely on at each point of its way. -/
def Call.Sound (s : Registry) : Call → Prop
  | .start _ => True
  | .resolved _ w => w < s.workerCount
  | .reserved job q => q < s.queueCount ∧ (job.id ∈ s.finished ∨ job ∈ (s.queue q).owed)
  | .handed _ => True
  | .refused _ w => w < s.workerCount ∧ (s.worker w).stopped = true

theorem Call.Sound.mono {ok : Prop} {call : Call} (hkept : Kept ok s t) (h : call.Sound s) :
    call.Sound t := by
  cases call with
  | start | handed => trivial
  | resolved job w => exact h.trans_le hkept.workers
  | reserved job q =>
    obtain ⟨hq, hjob⟩ := h
    refine ⟨hq.trans_le hkept.queues, ?_⟩
    rcases hjob with hfin | howed
    · exact Or.inl (hkept.finished hfin)
    · exact ((hkept.queue hq).owed job howed).imp_right And.left
  | refused job w => exact ⟨h.1.trans_le hkept.workers, (hkept.worker h.1).stopped h.2⟩

/-- The invariant of the registry, its workers and queues, and the calls under way. -/
structure Sound (s : Registry) : Prop where
  workers : Workers s
  queues : Queues s
  calls : ∀ {id call}, s.calls.lookup id = some call → call.Sound s

theorem sound_init : Sound {} where
  workers := ⟨by simp, by simp, by simp⟩
  queues := ⟨by simp, by simp, by simp, by simp, by simp⟩
  calls := by simp

theorem resolveWorker_lt {direct : Bool} (h : Workers s) :
    (s.resolveWorker c key direct).2 < (s.resolveWorker c key direct).1.workerCount := by
  unfold resolveWorker
  split
  · next hsome => exact (h.entry hsome).1
  · exact Nat.lt_succ_self _

theorem workers_step (h : Sound s) (hstep : Stepped c s e t) : Workers t := by
  have hw := h.workers
  cases hstep with
  | resolve => exact hw.resolveWorker.of_eq rfl rfl rfl
  | grant _ hlive => exact hw.grant hlive
  | dropStale hcall => exact (hw.dropWorker (h.calls hcall).2).of_eq rfl rfl rfl
  | workerFor => exact hw.resolveWorker
  | mode hv => exact hw.setWorker rfl (fun hlive => hlive) fun hlt hstop => hw.empty hlt hstop
  | onIdle => exact hw.onIdle
  | notify hq hloop => exact (hw.dropWorker (h.queues.stopped hq hloop)).of_eq rfl rfl rfl
  | _ => exact hw.of_eq rfl rfl rfl

theorem queues_step (h : Sound s) (hstep : Stepped c s e t) : Queues t := by
  have hqs := h.queues
  cases hstep with
  | resolve => exact hqs.resolveWorker.of_eq rfl rfl rfl rfl
  | grant hcall => exact hqs.grant (h.calls hcall)
  | @handoff id job q hcall =>
    obtain ⟨hq, hjob⟩ := h.calls hcall
    refine Queues.of_eq (hqs.setQueue (q := q) (by rfl) (by rfl) ?_ ?_ ?_) rfl rfl rfl rfl
    · exact fun _ hx => hqs.owed hq hx
    · intro _ hreg
      obtain ⟨hnote, hret, _⟩ := hqs.live hq hreg
      exact ⟨hnote, hret, fun _ => Or.inr (by simp)⟩
    · exact fun _ hloop => hqs.stopped hq hloop
  | dropStale =>
    rw [dropWorker_eq]
    exact hqs.of_eq rfl rfl rfl rfl
  | workerFor => exact hqs.resolveWorker
  | @mode w =>
    refine hqs.congr rfl ?_ rfl rfl
    intro v
    rw [worker_setWorker]
    split
    · next hvw => exact hvw ▸ ⟨rfl, rfl⟩
    · exact ⟨rfl, rfl⟩
  | paged hq hloop => exact hqs.setQueue_run rfl rfl (fun hx => hx) (by simp [hloop])
  | @elapse q hq =>
    exact hqs.setQueue rfl rfl (fun _ hx => hqs.owed hq hx) (fun _ hreg => hqs.live hq hreg)
      fun _ hloop => hqs.stopped hq hloop
  | @attach q jobs hq =>
    refine Queues.of_eq (hqs.setQueue (q := q) (by rfl) (by rfl) ?_ ?_ ?_) rfl rfl rfl rfl
    · exact fun _ hx => hqs.owed hq hx
    · intro _ hreg
      obtain ⟨hnote, hret, hcheck⟩ := hqs.live hq hreg
      refine ⟨hnote, hret, fun hloop => (hcheck hloop).imp_left ?_⟩
      intro hback hnil
      apply hback
      simp_all [Queue.backlog]
    · exact fun _ hloop => hqs.stopped hq hloop
  | take hq hloop =>
    rw [accept_eq]
    exact hqs.setQueue_run rfl rfl (fun hx => hx) (by simp [hloop])
  | takeSpills hq hloop => exact hqs.setQueue_run rfl rfl (fun hx => hx) (by simp [hloop])
  | load hq hloop => exact hqs.setQueue_run rfl rfl (fun hx => hx) (by simp [hloop])
  | finish hq hloop => exact hqs.settle hloop
  | expire hq hloop => exact hqs.settle hloop
  | exhaust hq hloop => exact hqs.setQueue_run rfl rfl (fun hx => hx) (by simp [hloop])
  | idle hq hloop => exact hqs.setQueue_run rfl rfl (fun hx => hx) (by simp)
  | check hq hloop => exact hqs.setQueue_run rfl rfl (fun hx => hx) (by split <;> simp)
  | onIdle hq => exact hqs.onIdle hq
  | @notify q hq hloop =>
    rw [dropWorker_eq]
    refine Queues.setQueue (hqs.of_eq rfl rfl rfl rfl) (by rfl) (by rfl) ?_ ?_ ?_
    · exact fun _ hx => hqs.owed hq hx
    · exact fun _ hreg => absurd hloop (hqs.live hq hreg).1
    · intro _ hx
      cases hx
  | @recheck q hq hloop =>
    refine hqs.setQueue (by rfl) (by rfl) (fun _ hx => hqs.owed hq hx) ?_ ?_
    · intro _ hreg
      have hserve := (hqs.live hq hreg).2.2 hloop
      simp [Queue.Live, hserve]
    · intro _ hx
      split at hx <;> cases hx
  | _ => exact hqs.of_eq rfl rfl rfl rfl

/-- A new slot is on a queue that owes the job. -/
theorem grant_owes (h : Sound s) (hw : w < s.workerCount) :
    (Call.reserved job (s.openQueue w (c.queueKeyLocked (s.worker w).accountQueueMode job)).2).Sound
      (s.grant c job w) := by
  have ho : Queues (s.openQueue w (c.queueKeyLocked (s.worker w).accountQueueMode job)).1 :=
    h.queues.openQueue hw
  refine ⟨(ho.entry (hw.trans_le (Kept.openQueue : Kept True s _).workers)
    Queues.lookup_openQueue).1, Or.inr ?_⟩
  simp [grant, setCall]

/-- Whatever a step does to a call, the call is sound where it stands then. -/
theorem calls_step {call : Call} (h : Sound s) (hstep : Stepped c s e t)
    (hcall : t.calls.lookup id = some call) : call.Sound t := by
  rcases call_of_step hstep hcall with hold | hmoved
  · exact (h.calls hold).mono (kept_step hstep)
  cases hmoved with
  | submitted => trivial
  | resolved _ ht =>
    change _ < t.workerCount
    rw [ht]
    exact resolveWorker_lt h.workers
  | refused hold hstop => exact Call.Sound.mono (kept_step hstep) ⟨h.calls hold, hstop⟩
  | reserved hold ht => exact ht ▸ grant_owes h (h.calls hold)
  | handed => trivial
  | again => trivial

theorem sound_step (h : Sound s) (hstep : Stepped c s e t) : Sound t where
  workers := workers_step h hstep
  queues := queues_step h hstep
  calls hcall := calls_step h hstep hcall

theorem sound_run {es : List Event} (hrun : Trace.exec (step c) {} es = some s) : Sound s :=
  Trace.exec_always (fun h hstep => sound_step h (stepped_of_step hstep)) sound_init hrun

def oneHost : Routing where
  domainKey url := url
  sha256String _ := "0"
  sha256_plain _ := Routing.zero_plain

def jobA : Job := { id := "a", userID := "u" }

def jobB : Job := { id := "b", userID := "u" }

end Aquifer.Registry
