import Aquifer.Core.Recovery

/-! While no destination changes its mode, a queue is given only jobs that route to it. -/
namespace Aquifer

/-- Only jobs that route to the queue were given to it, and only its own key is attached to it. -/
structure Queue.Owned (route : Job → String) (st : Store) (q : Queue) : Prop where
  opened : ∃ j, route j = q.storeKey
  given : ∀ r ∈ st.rows, r.pending = true → r.id ∈ q.given → route r.job = q.storeKey
  sources : ∀ src ∈ q.sources, src.key = q.storeKey

namespace Queues

variable {qs qs' : Queues} {q : Queue} {key id : String} {num n : Nat} {route : Job → String}
  {st : Store} {f : Queue → Queue}

def OnePerKey (qs : Queues) : Prop :=
  ∀ q ∈ qs.rows, ∀ q' ∈ qs.rows, q.registered = true → q'.registered = true →
    q.storeKey = q'.storeKey → q = q'

def Keeps (qs qs' : Queues) : Prop :=
  ∀ q ∈ qs.rows, ∃ q' ∈ qs'.rows, q'.num = q.num ∧ q'.storeKey = q.storeKey

theorem Keeps.refl (qs : Queues) : qs.Keeps qs := fun q hq => ⟨q, hq, rfl, rfl⟩

theorem mem_of_queueFor (h : qs.queueFor key = some q) :
    q ∈ qs.rows ∧ q.registered = true ∧ q.storeKey = key := by
  have hq := List.find?_some h
  rw [Bool.and_eq_true, decide_eq_true_iff] at hq
  exact ⟨List.mem_of_find?_eq_some h, hq⟩

theorem ne_of_queueFor_none (h : qs.queueFor key = none) (hq : q ∈ qs.rows)
    (hr : q.registered = true) : q.storeKey ≠ key := by
  simpa [hr] using List.find?_eq_none.mp h q hq

theorem keeps_update {hf : ∀ q, (f q).num = q.num ∧ (f q).num = q.num}
    (hk : ∀ q, (f q).storeKey = q.storeKey) : qs.Keeps (qs.update num f hf) := by
  intro q hq
  exact Table.exists_update
    (P := fun q' => q'.num = q.num ∧ q'.storeKey = q.storeKey)
    (fun r hr => ⟨(hf r).1.trans hr.1, (hk r).trans hr.2⟩) ⟨q, hq, rfl, rfl⟩

/-- An update that neither moves a queue to another key nor brings one back keeps keys apart. -/
theorem OnePerKey.update {hf : ∀ q, (f q).num = q.num ∧ (f q).num = q.num} (h : qs.OnePerKey)
    (hk : ∀ q, (f q).storeKey = q.storeKey)
    (hr : ∀ q, (f q).registered = true → q.registered = true) :
    OnePerKey (qs.update num f hf) := by
  intro a ha b hb hra hrb hab
  rcases Table.mem_update.mp ha with ⟨ha, hna⟩ | ⟨x, hx, hnx, rfl⟩ <;>
    rcases Table.mem_update.mp hb with ⟨hb, hnb⟩ | ⟨y, hy, hny, rfl⟩
  · exact h a ha b hb hra hrb hab
  · have := h a ha y hy hra (hr y hrb) (hab.trans (hk y))
    exact absurd (this ▸ hny) hna
  · have := h x hx b hb (hr x hra) hrb ((hk x).symm.trans hab)
    exact absurd (this ▸ hnx) hnb
  · rw [h x hx y hy (hr x hra) (hr y hrb) ((hk x).symm.trans (hab.trans (hk y)))]

theorem reserve_cases (h : qs.reserve key id num = some (qs', n)) :
    (∃ q, qs.queueFor key = some q ∧ n = q.num ∧ qs' = qs.give q.num [id]) ∨
      (qs.queueFor key = none ∧ qs.find num = none ∧ n = num ∧
        qs' = qs.insert { num, storeKey := key, given := [id] }) := by
  unfold reserve at h
  split at h
  next q hq =>
    cases h
    exact .inl ⟨q, hq, rfl, rfl⟩
  next hq =>
    split at h
    next hfree =>
      cases h
      exact .inr ⟨hq, hfree, rfl, rfl⟩
    next => cases h

/-- The queue a job was reserved on: registered, of the key asked for, and given the job. -/
theorem exists_of_reserve (h : qs.reserve key id num = some (qs', n)) :
    ∃ q ∈ qs'.rows, q.num = n ∧ q.registered = true ∧ q.storeKey = key ∧ id ∈ q.given := by
  rcases reserve_cases h with ⟨q, hq, rfl, rfl⟩ | ⟨-, hfree, rfl, rfl⟩
  · obtain ⟨hmem, hr, hk⟩ := mem_of_queueFor hq
    exact ⟨_, Table.mem_update.mpr (.inr ⟨q, hmem, rfl, rfl⟩), rfl, hr, hk, by simp⟩
  · exact ⟨_, Table.mem_insert_self hfree hfree, rfl, rfl, rfl, by simp⟩

theorem mem_of_reserve (h : qs.reserve key id num = some (qs', n)) (hq : q ∈ qs'.rows) :
    (∃ q₀ ∈ qs.rows, q.storeKey = q₀.storeKey ∧ q.sources = q₀.sources ∧
      (q.given = q₀.given ∨ q.storeKey = key ∧ q.given = id :: q₀.given)) ∨
      (q.storeKey = key ∧ q.sources = [] ∧ q.given = [id]) := by
  rcases reserve_cases h with ⟨x, hx, rfl, rfl⟩ | ⟨-, -, rfl, rfl⟩
  · rcases Table.mem_update.mp hq with ⟨hq, -⟩ | ⟨y, hy, hn, rfl⟩
    · exact .inl ⟨q, hq, rfl, rfl, .inl rfl⟩
    · obtain ⟨hmem, -, hk⟩ := mem_of_queueFor hx
      rw [Table.eq_of_id hy hmem hn]
      exact .inl ⟨x, hmem, rfl, rfl, .inr ⟨hk, rfl⟩⟩
  · rcases Table.mem_insert hq with rfl | hq
    · exact .inr ⟨rfl, rfl, rfl⟩
    · exact .inl ⟨q, hq, rfl, rfl, .inl rfl⟩

/-- No queue loses what it was given, its sources or its place in the registry. -/
theorem kept_of_reserve (h : qs.reserve key id num = some (qs', n)) (hq : q ∈ qs.rows) :
    ∃ q' ∈ qs'.rows, q'.num = q.num ∧ q'.storeKey = q.storeKey ∧
      q'.registered = q.registered ∧ q'.sources = q.sources ∧ q.given ⊆ q'.given := by
  rcases reserve_cases h with ⟨x, hx, rfl, rfl⟩ | ⟨-, -, rfl, rfl⟩
  · by_cases hn : q.num = x.num
    · exact ⟨_, Table.mem_update.mpr (.inr ⟨q, hq, hn, rfl⟩), rfl, rfl, rfl, rfl,
        fun _ hi => List.mem_append_right _ hi⟩
    · exact ⟨q, Table.mem_update.mpr (.inl ⟨hq, hn⟩), rfl, rfl, rfl, rfl, List.Subset.refl _⟩
  · exact ⟨q, Table.mem_insert_of_mem hq, rfl, rfl, rfl, rfl, List.Subset.refl _⟩

theorem keeps_reserve (h : qs.reserve key id num = some (qs', n)) : qs.Keeps qs' := by
  intro q hq
  obtain ⟨q', hq', hn, hk, -⟩ := kept_of_reserve h hq
  exact ⟨q', hq', hn, hk⟩

theorem OnePerKey.reserve (hone : qs.OnePerKey) (h : qs.reserve key id num = some (qs', n)) :
    qs'.OnePerKey := by
  rcases reserve_cases h with ⟨x, hx, rfl, rfl⟩ | ⟨hnone, -, rfl, rfl⟩
  · exact hone.update (fun _ => rfl) fun _ hr => hr
  · intro a ha b hb hra hrb hab
    rcases Table.mem_insert ha with rfl | ha <;> rcases Table.mem_insert hb with rfl | hb
    · rfl
    · exact absurd hab.symm (ne_of_queueFor_none hnone hb hrb)
    · exact absurd hab (ne_of_queueFor_none hnone ha hra)
    · exact hone a ha b hb hra hrb hab

theorem owned_reserve {job : Job} (howned : ∀ q ∈ qs.rows, q.Owned route st)
    (hcopy : ∀ r ∈ st.rows, r.pending = true → r.id = job.id → route r.job = route job)
    (h : qs.reserve (route job) job.id num = some (qs', n)) :
    ∀ q ∈ qs'.rows, q.Owned route st := by
  intro q hq
  rcases mem_of_reserve h hq with ⟨x, hx, hk, hs, hg⟩ | ⟨hk, hs, hg⟩
  · have hown := howned x hx
    refine ⟨hk ▸ hown.opened, fun r hr hp hi => ?_, fun src hsrc => ?_⟩
    · rcases hg with hg | ⟨hkey, hg⟩ <;> rw [hg] at hi
      · exact (hown.given r hr hp hi).trans hk.symm
      · rcases List.mem_cons.mp hi with hi | hi
        · exact (hcopy r hr hp hi).trans hkey.symm
        · exact (hown.given r hr hp hi).trans hk.symm
    · exact (hown.sources src (hs ▸ hsrc)).trans hk.symm
  · refine ⟨⟨job, hk.symm⟩, fun r hr hp hi => ?_, fun src hsrc => ?_⟩
    · rw [hg, List.mem_singleton] at hi
      exact (hcopy r hr hp hi).trans hk.symm
    · simp [hs] at hsrc

end Queues

/-- Every pending row was a pending row of the same job before, unless its id is a fresh one. -/
def Store.Carries (fresh : String → Prop) (st st' : Store) : Prop :=
  ∀ r ∈ st'.rows, r.pending = true →
    fresh r.id ∨ ∃ r₀ ∈ st.rows, r₀.pending = true ∧ r₀.job = r.job

namespace Store

variable {st : Store} {fresh : String → Prop}

theorem carries_refl (fresh : String → Prop) (st : Store) : st.Carries fresh st :=
  fun r hr hp => .inr ⟨r, hr, hp, rfl⟩

theorem carries_setQueueKey (id key : String) : st.Carries fresh (st.setQueueKey id key) := by
  intro r hr hp
  rcases mem_setQueueKey.mp hr with ⟨hr, -⟩ | ⟨r₀, hr₀, -, rfl⟩
  · exact .inr ⟨r, hr, hp, rfl⟩
  · exact .inr ⟨r₀, hr₀, hp, rfl⟩

theorem carries_updateStatus {id : String} {status : Status} {now : Time}
    (hst : status.pending = false) : st.Carries fresh (st.updateStatus id status now) := by
  intro r hr hp
  have hold := ((mem_updateStatus_pending hst).mp ⟨hr, hp⟩).1
  exact .inr ⟨r, hold.1, hold.2, rfl⟩

theorem mem_of_mem_deleteExpired {r : Row} {now : Time} (h : r ∈ (st.deleteExpired now).rows) :
    r ∈ st.rows :=
  List.mem_of_mem_filter h

theorem carries_deleteExpired (now : Time) : st.Carries fresh (st.deleteExpired now) :=
  fun r hr hp => .inr ⟨r, mem_of_mem_deleteExpired hr, hp, rfl⟩

theorem carries_checkOrInsert (env : Env) (job : Job) (now : Time) :
    st.Carries (· = job.id) (st.checkOrInsert env job now).1 := by
  intro r hr hp
  rcases mem_checkOrInsert hr with hr | rfl
  · exact .inr ⟨r, hr, hp, rfl⟩
  · exact .inl rfl

end Store

/-- The copy of a job in memory routes as the stored row does. -/
def Copied (route : Job → String) (st : Store) (j : Job) : Prop :=
  ∀ r ∈ st.rows, r.pending = true → r.id = j.id → route r.job = route j

/-- A hand-off in progress is to a queue that the job routes to. -/
def Handed (route : Job → String) (st : Store) (qs : Queues) (h : Job × Nat) : Prop :=
  Copied route st h.1 ∧ ∃ q ∈ qs.rows, q.num = h.2 ∧ q.storeKey = route h.1

/-- What recovery has in memory routes as the store and the queues say. -/
def Task.Wired (route : Job → String) (st : Store) (qs : Queues) : Task → Prop
  | .idle | .pageAll _ _ => True
  | .enqueue jobs next => (∀ j ∈ jobs, Copied route st j) ∧ next.Wired route st qs
  | .handoff job num next => Handed route st qs (job, num) ∧ next.Wired route st qs
  | .firstPage key _ => '|' ∈ key.toList
  | .attach key last => route last = key
  | .attachTo num key _ => ∃ q ∈ qs.rows, q.num = num ∧ q.storeKey = key

section Carried

variable {route : Job → String} {st st' : Store} {qs qs' : Queues} {fresh : String → Prop}

theorem Copied.carried {j : Job} (h : Copied route st j) (hst : st.Carries fresh st')
    (hj : ¬ fresh j.id) : Copied route st' j := by
  intro r hr hp hid
  rcases hst r hr hp with hf | ⟨r₀, hr₀, hp₀, hjob⟩
  · exact absurd (hid ▸ hf) hj
  · rw [← hjob]
    exact h r₀ hr₀ hp₀ ((congrArg Job.id hjob).trans hid)

theorem Handed.carried {h : Job × Nat} (hh : Handed route st qs h) (hst : st.Carries fresh st')
    (hqs : qs.Keeps qs') (hj : ¬ fresh h.1.id) : Handed route st' qs' h := by
  obtain ⟨hc, q, hq, hn, hk⟩ := hh
  obtain ⟨q', hq', hn', hk'⟩ := hqs q hq
  exact ⟨hc.carried hst hj, q', hq', hn'.trans hn, hk'.trans hk⟩

theorem Queue.Owned.carried {q : Queue} (h : q.Owned route st) (hst : st.Carries fresh st')
    (hq : ∀ id ∈ q.given, ¬ fresh id) : q.Owned route st' := by
  refine { h with given := fun r hr hp hid => ?_ }
  rcases hst r hr hp with hf | ⟨r₀, hr₀, hp₀, hjob⟩
  · exact absurd hf (hq r.id hid)
  · have hsame : r₀.id = r.id := congrArg Job.id hjob
    rw [← hjob]
    exact h.given r₀ hr₀ hp₀ (hsame ▸ hid)

theorem Task.Wired.carried {task : Task} (h : task.Wired route st qs) (hst : st.Carries fresh st')
    (hqs : qs.Keeps qs') (hids : ∀ id ∈ task.ids, ¬ fresh id) : task.Wired route st' qs' := by
  induction task with
  | idle | pageAll | firstPage | attach => exact h
  | enqueue jobs next ih =>
    refine ⟨fun j hj => (h.1 j hj).carried hst (hids j.id ?_), ih h.2 fun id hid => hids id ?_⟩
    · exact List.mem_append_left _ (List.mem_map_of_mem hj)
    · exact List.mem_append_right _ hid
  | handoff job num next ih =>
    refine ⟨h.1.carried hst hqs (hids job.id List.mem_cons_self), ih h.2 fun id hid => hids id ?_⟩
    exact List.mem_cons_of_mem _ hid
  | attachTo num key after =>
    obtain ⟨q, hq, hn, hk⟩ := h
    obtain ⟨q', hq', hn', hk'⟩ := hqs q hq
    exact ⟨q', hq', hn'.trans hn, hk'.trans hk⟩

end Carried

/-- The key a hand-off writes is the one its row routes to. -/
theorem Handed.routes {c : Routing} {modes : String → Bool}
    {st : Store} {qs : Queues} {job : Job} {num : Nat} {q : Queue} {r : Row}
    (hh : Handed (c.storeKeyFor modes) st qs (job, num))
    (hq : qs.find num = some q) (hr : r ∈ st.rows) (hp : r.pending = true)
    (hid : r.id = job.id) : Row.Routes c modes { r with queueKey := q.storeKey } := by
  obtain ⟨hcopy, q', hq', hn, hk⟩ := hh
  obtain ⟨hmem, hnum⟩ := Table.find_eq_some_iff.mp hq
  have hsame : q' = q := Table.eq_of_id hq' hmem (hn.trans hnum.symm)
  exact (hcopy r hr hp hid).trans (hsame ▸ hk).symm

/-- Before its first hand-off, and after it has returned, recovery has nothing in memory. -/
def Pass.quiet : Pass → Bool
  | .start | .first _ _ false | .done => true
  | .first _ _ true | .second _ => false

namespace Recovery

/-- All parties agree on which queue each job belongs to, in the modes `modes`. -/
structure Wired (c : RecoveryConfig) (modes : String → Bool) (s : Recovery) : Prop where
  mode : s.mode c = modes
  keyed : ∀ r ∈ s.store.rows, r.pending = true → r.Keyed c.toRouting
  owned : ∀ q ∈ s.queues.rows, q.Owned (c.toRouting.storeKeyFor modes) s.store
  one : s.queues.OnePerKey
  task : s.task.Wired (c.toRouting.storeKeyFor modes) s.store s.queues
  sending : ∀ j ∈ s.sending,
    j.id ∈ s.webhooks ∧ Copied (c.toRouting.storeKeyFor modes) s.store j
  handing : ∀ h ∈ s.handing,
    h.1.id ∈ s.webhooks ∧ Handed (c.toRouting.storeKeyFor modes) s.store s.queues h
  quiet : s.pass.quiet = true → s.task = .idle

namespace Wired

variable {c : RecoveryConfig} {modes : String → Bool} {s t : Recovery} {e : Event} {now : Time}
  {job : Job} {q : Queue}

theorem control (h : s.Wired c modes) (now : Time) (pass : Pass) (task : Task) (seen : List String)
    (hk : task.Wired (c.toRouting.storeKeyFor modes) s.store s.queues)
    (hq : pass.quiet = true → task = .idle) :
    Wired c modes { s with clock := now, pass, task, seen } where
  __ := h
  task := hk
  quiet := hq

theorem restore (h : s.Wired c modes) (now : Time) {st : Store}
    (hst : s.store.Carries (fun _ => False) st)
    (hk : ∀ r ∈ st.rows, r.pending = true → r.Keyed c.toRouting) :
    Wired c modes { s with clock := now, store := st } where
  __ := h
  keyed := hk
  owned q hq := (h.owned q hq).carried hst fun _ _ => id
  task := h.task.carried hst (.refl _) fun _ _ => id
  sending j hj := ⟨(h.sending j hj).1, (h.sending j hj).2.carried hst id⟩
  handing x hx := ⟨(h.handing x hx).1, (h.handing x hx).2.carried hst (.refl _) id⟩

theorem requeue (h : s.Wired c modes) (now : Time) {qs : Queues} (hone : qs.OnePerKey)
    (hown : ∀ q ∈ qs.rows, q.Owned (c.toRouting.storeKeyFor modes) s.store)
    (hkeep : s.queues.Keeps qs) : Wired c modes { s with clock := now, queues := qs } where
  __ := h
  owned := hown
  one := hone
  task := h.task.carried (Store.carries_refl (fun _ => False) _) hkeep fun _ _ => id
  handing x hx := ⟨(h.handing x hx).1,
    (h.handing x hx).2.carried (Store.carries_refl (fun _ => False) _) hkeep id⟩

theorem rekey (h : s.Wired c modes) {num : Nat}
    (hh : Handed (c.toRouting.storeKeyFor modes) s.store s.queues (job, num))
    (hq : s.queues.find num = some q) :
    Wired c modes { s with store := s.store.setQueueKey job.id q.storeKey } := by
  refine h.restore s.clock (Store.carries_setQueueKey _ _) fun r hr hp => ?_
  rcases Store.mem_setQueueKey.mp hr with ⟨hr, -⟩ | ⟨r₀, hr₀, hid, rfl⟩
  · exact h.keyed r hr hp
  · exact (hh.routes hq hr₀ hp hid).keyed

theorem reserve (h : s.Wired c modes) {num n : Nat} {qs : Queues}
    (hcopy : Copied (c.toRouting.storeKeyFor modes) s.store job)
    (hq : s.queues.reserve (s.storeKeyFor c job) job.id num = some (qs, n)) :
    Wired c modes { s with queues := qs } ∧
      Handed (c.toRouting.storeKeyFor modes) s.store qs (job, n) := by
  rw [storeKeyFor, h.mode] at hq
  obtain ⟨q, hmem, hn, -, hk, -⟩ := Queues.exists_of_reserve hq
  refine ⟨h.requeue s.clock (h.one.reserve hq) ?_ (Queues.keeps_reserve hq), hcopy, q, hmem, hn, hk⟩
  exact Queues.owned_reserve h.owned hcopy hq

theorem attach (h : s.Wired c modes) {num : Nat} {key : String} {after : PageCursor}
    (hk : ∃ q ∈ s.queues.rows, q.num = num ∧ q.storeKey = key) :
    Wired c modes { s with queues := s.queues.attachSpill num ⟨key, after⟩ } := by
  refine h.requeue s.clock (h.one.update (fun _ => rfl) fun _ hr => hr) ?_
    (Queues.keeps_update fun _ => rfl)
  refine Table.forall_update h.owned fun q hq hn => ?_
  have hown := h.owned q hq
  refine { hown with sources := fun src hsrc => ?_ }
  rcases List.mem_append.mp hsrc with hsrc | hsrc
  · exact hown.sources src hsrc
  · obtain ⟨q', hq', hn', hkey⟩ := hk
    rw [List.mem_singleton.mp hsrc, ← hkey, Table.eq_of_id hq' hq (hn'.trans hn.symm)]

/-- Every pending row under a key that some job routes to routes there itself. -/
theorem routes_of_key (h : s.Wired c modes) {r : Row} (hr : r ∈ s.store.rows)
    (hp : r.pending = true) (hq : q ∈ s.queues.rows) (hk : r.queueKey = q.storeKey) :
    r.Routes c.toRouting modes := by
  obtain ⟨j, hj⟩ := (h.owned q hq).opened
  exact (h.keyed r hr hp).routes (hj.trans hk.symm)

theorem owned_refill (h : s.Wired c modes) {src : Source} (hq : q ∈ s.queues.rows)
    (hsrc : src ∈ q.sources) :
    (q.refill src (s.store.queuedPage src.key src.after 0 c.pageSize now) c.pageSize).Owned
      (c.toRouting.storeKeyFor modes) s.store := by
  have hown := h.owned q hq
  refine ⟨hown.opened, fun r hr hp hid => ?_, fun x hx => ?_⟩
  · rcases List.mem_append.mp hid with hid | hid
    · obtain ⟨j, hj, hjr⟩ := List.mem_map.mp hid
      obtain ⟨r₀, hr₀, -, rfl⟩ := Store.mem_queuedPage hj
      obtain ⟨hmem, -, hkey, -⟩ := Store.mem_pendingUnder.mp hr₀
      obtain rfl : r₀ = r := Table.eq_of_id hmem hr hjr
      have hk := hkey.trans (hown.sources src hsrc)
      exact (h.routes_of_key hr hp hq hk).trans hk
    · exact hown.given r hr hp hid
  · obtain ⟨y, hy, hyx⟩ := List.mem_filterMap.mp hx
    split at hyx
    · unfold Source.advance at hyx
      split at hyx <;> cases hyx
      exact hown.sources src hsrc
    · cases hyx
      exact hown.sources x hy

end Wired

section Step

variable {c : RecoveryConfig} {modes : String → Bool} {s t : Recovery} {e : Event}

theorem copied_asQueued {st : Store} {r₀ : Row} (hr₀ : r₀ ∈ st.rows) :
    Copied (c.toRouting.storeKeyFor modes) st r₀.job.asQueued := by
  intro r hr hp hid
  obtain rfl : r = r₀ := Table.eq_of_id hr hr₀ hid
  rfl

theorem copied_of_mem_page {st : Store} {key : String} {after : PageCursor} {size : Nat}
    {now : Time} {j : Job} (hj : j ∈ st.queuedPage key after 0 size now) :
    Copied (c.toRouting.storeKeyFor modes) st j := by
  obtain ⟨r₀, hr₀, -, rfl⟩ := Store.mem_queuedPage hj
  exact copied_asQueued (Store.mem_pendingUnder.mp hr₀).1

theorem wired_loadAll (key : String) (now : Time) :
    (s.loadAll key now).Wired (c.toRouting.storeKeyFor modes) s.store s.queues := by
  unfold Recovery.loadAll
  split
  · refine ⟨fun j hj => ?_, trivial⟩
    obtain ⟨r₀, hr₀, rfl⟩ := List.mem_map.mp hj
    exact copied_asQueued (Store.mem_pendingUnder.mp hr₀).1
  · trivial

theorem Wired.answer (h : s.Wired c modes) {domain : String} {on : Bool}
    (hon : s.mode c domain = on) :
    Wired c modes { s with destination := (domain, on) :: s.destination } := by
  refine { h with mode := ?_ }
  rw [← h.mode]
  funext d
  by_cases hd : d = domain
  · subst hd
    simp [Recovery.mode, ← hon]
  · simp [Recovery.mode, List.lookup_cons, beq_false_of_ne hd]

theorem Wired.webhook (h : s.Wired c modes) {job : Job} {now : Time}
    (hid : s.unused job.id = true) :
    Wired c modes { s with
      clock := now
      store := (s.store.checkOrInsert c.env job now).1
      webhooks := job.id :: s.webhooks
      sending := job :: s.sending } := by
  obtain ⟨hfree, hnew, -, htask, hgiven⟩ := unused_iff.mp hid
  have hcar : s.store.Carries (· = job.id) (s.store.checkOrInsert c.env job now).1 :=
    Store.carries_checkOrInsert c.env job now
  exact {
    mode := h.mode
    keyed := by
      intro r hr hp
      rcases Store.mem_checkOrInsert hr with hr | rfl
      · exact h.keyed r hr hp
      · exact fun hbar => absurd hbar (by simp [Store.newRow])
    owned := fun q hq => (h.owned q hq).carried hcar fun id hmem heq => hgiven q hq (heq ▸ hmem)
    one := h.one
    task := h.task.carried hcar (.refl _) fun id hmem heq => htask (heq ▸ hmem)
    sending := by
      intro j hj
      rcases List.mem_cons.mp hj with rfl | hj
      · refine ⟨List.mem_cons_self, fun r hr hp hrid => ?_⟩
        rcases Store.mem_checkOrInsert hr with hr | rfl
        · exact absurd hrid (Table.find_eq_none_iff.mp hfree r hr)
        · rfl
      · have hold := h.sending j hj
        exact ⟨List.mem_cons_of_mem _ hold.1, hold.2.carried hcar fun heq => hnew (heq ▸ hold.1)⟩
    handing := by
      intro x hx
      have hold := h.handing x hx
      exact ⟨List.mem_cons_of_mem _ hold.1,
        hold.2.carried hcar (.refl _) fun heq => hnew (heq ▸ hold.1)⟩
    quiet := h.quiet }

/-- What follows the first page of a key whose rows all route to it. -/
theorem wired_afterFirst {key : String} {n : Nat} {now : Time}
    (hroutes : ∀ r ∈ s.store.pendingUnder key now, r.Routes c.toRouting modes) :
    (afterFirst c key n (s.store.queuedPage key {} 0 c.pageSize now)).Wired
      (c.toRouting.storeKeyFor modes) s.store s.queues := by
  unfold afterFirst
  split
  · trivial
  split
  · trivial
  next last hlast =>
    obtain ⟨r, hr, -, rfl⟩ := Store.mem_queuedPage (List.mem_of_getLast? hlast)
    exact (hroutes r hr).trans (Store.mem_pendingUnder.mp hr).2.2.1

theorem bar_mem_of_pageable {key : String} {now : Time} (h : s.pageable c key now = true) :
    '|' ∈ key.toList := by
  unfold pageable at h
  split at h
  · cases h
  · exact not_not.mp ‹_›

/-- One step keeps everybody in agreement. Only the page after which a source may be attached needs
more: that the rows under its key still route to it. -/
theorem wired_step (h : s.Wired c modes) (hok : s.steady c e = true) (hm : s.Moves c e t)
    (hroutes : ∀ key n now, s.task = .firstPage key n → s.clock ≤ now →
      ∀ r ∈ s.store.pendingUnder key now, r.Routes c.toRouting modes) :
    t.Wired c modes := by
  have hk := h.task
  cases hm with
  | beginEmpty hp => exact h.control _ _ _ _ hk fun _ => h.quiet (by rw [hp]; rfl)
  | begin hp hc => exact h.control _ _ _ _ hk fun _ => h.quiet (by rw [hp]; rfl)
  | keep hp ht => exact h.control _ _ _ _ hk fun _ => ht
  | load => exact h.control _ _ _ _ (wired_loadAll _ _) fun hq => absurd hq (by simp [Pass.quiet])
  | take hp ht hmem hg =>
    exact h.control _ _ _ _ (bar_mem_of_pageable hg) fun hq => absurd hq (by simp [Pass.quiet])
  | skip => exact h.control _ _ _ _ trivial fun _ => rfl
  | recount hp ht => exact h.control _ _ _ _ hk fun _ => ht
  | readPage ht hpage =>
    refine h.control _ _ _ _ ⟨fun j hj => copied_of_mem_page (hpage ▸ hj), ?_⟩ fun hq => ?_
    · split <;> trivial
    · exact absurd (h.quiet hq) (by simp [ht])
  | readFirst ht hpage =>
    have hnow : s.clock ≤ _ := decide_eq_true_iff.mp hok
    subst hpage
    refine h.control _ _ _ _ ⟨fun j hj => copied_of_mem_page hj, ?_⟩ fun hq => ?_
    · exact wired_afterFirst (hroutes _ _ _ ht hnow)
    · exact absurd (h.quiet hq) (by simp [ht])
  | enqueued ht =>
    rw [ht] at hk
    exact h.control _ _ _ _ hk.2 fun hq => absurd (h.quiet hq) (by simp [ht])
  | again ht hseen =>
    rw [ht] at hk
    refine h.control _ _ _ _ ⟨fun j hj => hk.1 j (List.mem_cons_of_mem _ hj), hk.2⟩ fun hq => ?_
    exact absurd (h.quiet hq) (by simp [ht])
  | @reserve num job jobs next qs n ht hq =>
    rw [ht] at hk
    obtain ⟨hw, hhand⟩ := h.reserve (hk.1 job List.mem_cons_self) hq
    have htask := hw.task
    dsimp only at htask
    rw [ht] at htask
    have hrest := fun j hj => htask.1 j (List.mem_cons_of_mem _ hj)
    refine hw.control _ _ _ _ ⟨hhand, hrest, htask.2⟩ fun hquiet => ?_
    exact absurd (h.quiet hquiet) (by simp [ht])
  | handOver ht hq =>
    rw [ht] at hk
    have hw := h.rekey hk.1 hq
    have htask := hw.task
    dsimp only at htask
    rw [ht] at htask
    exact hw.control _ _ _ _ htask.2 fun hquiet => absurd (h.quiet hquiet) (by simp [ht])
  | found ht hq =>
    rw [ht] at hk
    rw [storeKeyFor, h.mode] at hq
    obtain ⟨hmem, -, hkey⟩ := Queues.mem_of_queueFor hq
    refine h.control _ _ _ _ ⟨_, hmem, rfl, hkey.trans hk⟩ fun hquiet => ?_
    exact absurd (h.quiet hquiet) (by simp [ht])
  | missing ht hq =>
    exact h.control _ _ _ _ trivial fun hquiet => absurd (h.quiet hquiet) (by simp [ht])
  | attach ht =>
    rw [ht] at hk
    exact (h.attach hk).control _ _ _ _ trivial fun _ => rfl
  | finish hp ht => exact h.control _ _ _ _ hk fun _ => ht
  | answer => exact h.answer (decide_eq_true_iff.mp hok)
  | complete hst =>
    refine h.restore _ (Store.carries_updateStatus hst) fun r hr hp => ?_
    exact h.keyed r ((Store.mem_updateStatus_pending hst).mp ⟨hr, hp⟩).1.1 hp
  | refill hq hr hsrc hpage =>
    subst hpage
    refine h.requeue _ (h.one.update (fun _ => rfl) fun _ hr => hr) ?_
      (Queues.keeps_update fun _ => rfl)
    refine Table.forall_update h.owned fun x hx hn => ?_
    obtain ⟨hmem, hnum⟩ := Table.find_eq_some_iff.mp hq
    rw [Table.eq_of_id hx hmem (hn.trans hnum.symm)]
    exact h.owned_refill hmem hsrc
  | retire hq hsrc hidle =>
    refine h.requeue s.clock (h.one.update (fun _ => rfl) fun _ hr => nomatch hr) ?_
      (Queues.keeps_update fun _ => rfl)
    refine Table.forall_update h.owned fun x hx _ => ?_
    exact ⟨(h.owned x hx).opened, (h.owned x hx).given, (h.owned x hx).sources⟩
  | webhookKnown => exact h.control _ _ _ _ hk h.quiet
  | webhook hid => exact h.webhook hid
  | webhookEnqueue hj hq =>
    obtain ⟨hid, hcopy⟩ := h.sending _ hj
    obtain ⟨hw, hhand⟩ := h.reserve hcopy hq
    refine { hw with sending := fun j hj => h.sending j (List.mem_of_mem_erase hj), handing := ?_ }
    intro x hx
    rcases List.mem_cons.mp hx with rfl | hx
    · exact ⟨hid, hhand⟩
    · exact hw.handing x hx
  | webhookHandOver hj hq =>
    have hw := h.rekey (h.handing _ hj).2 hq
    exact { hw with handing := fun x hx => hw.handing x (List.mem_of_mem_erase hx) }
  | cleanup =>
    exact h.restore _ (Store.carries_deleteExpired _) fun r hr hp =>
      h.keyed r (Store.mem_of_mem_deleteExpired hr) hp

end Step

end Recovery

end Aquifer
