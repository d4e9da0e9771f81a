import Aquifer.Core.Coverage

/-! Every step of recovery keeps every stored job covered, and so does every run. -/
namespace Aquifer

namespace Store

variable {st : Store} {id key : String} {now now' : Time} {r : Row}

theorem open_setQueueKey (h : (st.setQueueKey id key).Open now r) :
    (st.Open now r ∧ r.id ≠ id) ∨
      ∃ r₀, st.Open now r₀ ∧ r₀.id = id ∧ r = { r₀ with queueKey := key } := by
  obtain ⟨hmem, hp, hl⟩ := h
  rcases mem_setQueueKey.mp hmem with ⟨hr, hne⟩ | ⟨r₀, hr₀, hid, rfl⟩
  · exact .inl ⟨⟨hr, hp, hl⟩, hne⟩
  · exact .inr ⟨r₀, ⟨hr₀, hp, hl⟩, hid, rfl⟩

theorem key_mem_pendingQueueKeys (h : st.Open now r) :
    r.queueKey ∈ (st.pendingQueueKeys now).map Prod.fst :=
  List.mem_map.mpr ⟨(r.queueKey, _), mem_pendingQueueKeys.mpr ⟨⟨r, h.mem_pendingUnder⟩, rfl⟩, rfl⟩

end Store

theorem Task.id_mem_of_hands {task : Task} {x : Job × Nat} (h : x ∈ task.hands) :
    x.1.id ∈ task.ids := by
  induction task with
  | idle | pageAll | firstPage | attach | attachTo => cases h
  | enqueue jobs next ih => exact List.mem_append_right _ (ih h)
  | handoff job num next ih =>
    rcases List.mem_cons.mp h with rfl | h
    · exact List.mem_cons_self
    · exact List.mem_cons_of_mem _ (ih h)

theorem Task.Reaches.of_cons {r : Row} {job : Job} {jobs : List Job} {next : Task}
    (h : (Task.enqueue (job :: jobs) next).Reaches r) :
    r.id = job.id ∨ (Task.enqueue jobs next).Reaches r := by
  rcases h with hmem | hreach
  · exact (List.mem_cons.mp hmem).imp_right .inl
  · exact .inr (.inr hreach)

namespace Pass.Reaches

variable {c : Routing} {modes : String → Bool} {r : Row}

/-- Once a key is taken from the list, a pass still reaches the rows of the others. -/
theorem erase_first {counts : List (String × Nat)} {todo : List String} {moved : Bool}
    (h : (Pass.first counts todo moved).Reaches c modes r) (key : String) (moved' : Bool) :
    r.queueKey = key ∨ (Pass.first counts (todo.erase key) moved').Reaches c modes r := by
  by_cases hkey : r.queueKey = key
  · exact .inl hkey
  · exact .inr ⟨h.1, h.2.imp_left (List.mem_erase_of_ne hkey).mpr⟩

theorem erase_second {todo : List (String × Nat)} (h : (Pass.second todo).Reaches c modes r)
    (key : String) (n : Nat) :
    r.queueKey = key ∨ (Pass.second (todo.erase (key, n))).Reaches c modes r := by
  by_cases hkey : r.queueKey = key
  · exact .inl hkey
  · obtain ⟨p, hp, heq⟩ := List.mem_map.mp h.1
    have hne : p ≠ (key, n) := fun hpair => hkey (heq.symm.trans (congrArg Prod.fst hpair))
    exact .inr ⟨List.mem_map.mpr ⟨p, (List.mem_erase_of_ne hne).mpr hp, heq⟩, h.2⟩

end Pass.Reaches

namespace Recovery

variable {c : RecoveryConfig} {modes : String → Bool} {s t : Recovery} {e : Event} {num n : Nat}
  {now : Time} {key : String} {job : Job} {q : Queue} {qs : Queues} {next : Task} {r : Row}

namespace Covered

theorem reserve (h : s.Covered c modes) {id : String}
    (hq : s.queues.reserve key id num = some (qs, n)) :
    Covered c modes { s with queues := qs } :=
  h.requeue le_rfl (fun _ _ => (Queues.held_of_reserve hq).1)
    fun _ _ hd => .inr ((Queues.held_of_reserve hq).2 hd)

theorem rekey (h : s.Covered c modes) (hh : (job, num) ∈ s.hands) :
    Covered c modes { s with store := s.store.setQueueKey job.id key } := by
  refine h.restore s.clock fun r hr => ?_
  rcases Store.open_setQueueKey hr with ⟨hr, -⟩ | ⟨r₀, hr₀, hid, rfl⟩
  · exact .inl hr
  · exact .inr ⟨r₀, hr₀, rfl, List.mem_map.mpr ⟨_, hh, hid.symm⟩⟩

theorem webhook (h : s.Covered c modes) (hw : s.Wired c modes) (hnow : s.clock ≤ now)
    (hid : s.unused job.id = true) :
    Covered c modes { s with
      clock := now
      store := (s.store.checkOrInsert c.env job now).1
      webhooks := job.id :: s.webhooks
      sending := job :: s.sending } := by
  obtain ⟨-, hnew, hseen, htask, -⟩ := unused_iff.mp hid
  -- a row of the new store is an old one, or the new one, whose id nothing knows yet
  have hopen : ∀ r, (s.store.checkOrInsert c.env job now).1.Open now r →
      s.store.Open s.clock r ∨ r.id = job.id := by
    intro r hr
    rcases Store.mem_checkOrInsert hr.1 with hmem | rfl
    · exact .inl ⟨hmem, hr.2.1, Row.live_of_le hr.2.2 hnow⟩
    · exact .inr rfl
  have hsend : ∀ r : Row, r.id = job.id → r.id ∈ (job :: s.sending).map Job.id :=
    fun r heq => List.mem_cons.mpr (.inl heq)
  constructor
  · intro r hr hid
    refine h.stored r ((hopen r hr).resolve_right fun heq => hid ?_) fun hmem => hid ?_
    · exact heq ▸ List.mem_cons_self
    · exact List.mem_cons_of_mem _ hmem
  · intro r hr hid
    exact h.seen r ((hopen r hr).resolve_right fun heq => hseen (heq ▸ hid)) hid
  · intro r hr hid
    refine h.handed r ((hopen r hr).resolve_right fun heq => ?_) hid
    obtain ⟨x, hx, hxr⟩ := List.mem_map.mp hid
    rcases List.mem_append.mp hx with hx | hx
    · exact htask (heq ▸ hxr ▸ Task.id_mem_of_hands hx)
    · exact hnew (heq ▸ hxr ▸ (hw.handing x hx).1)
  · intro r hr hid
    rcases hopen r hr with hr | heq
    · rcases List.mem_cons.mp hid with heq | hid
      · exact .inr (hsend r heq)
      · exact (h.sent r hr hid).imp_right (List.mem_cons_of_mem _)
    · exact .inr (hsend r heq)

theorem enqueue (h : s.Covered c modes) {jobs : List Job}
    (ht : s.task = .enqueue (job :: jobs) next)
    (hq : s.queues.reserve (s.storeKeyFor c job) job.id num = some (qs, n)) :
    Covered c modes { s with
      queues := qs
      seen := job.id :: s.seen
      task := .handoff job n (.enqueue jobs next) } := by
  have hgiven : ∀ r : Row, r.id = job.id → qs.Given r := fun r => Queues.given_of_reserve hq
  refine (h.reserve hq).control le_rfl s.pass _ _ s.sending s.handing ?_ ?_ ?_ fun _ _ => .inl
  · intro r hr hid hreach
    dsimp only at hreach
    rw [ht] at hreach
    rcases hreach with hreach | hreach
    · exact .inr (.inr (.inl hreach))
    · rcases hreach.of_cons with heq | hreach
      · exact .inl (hgiven r heq)
      · exact .inr (.inr (.inr hreach))
  · intro r hr hmem
    exact (List.mem_cons.mp hmem).symm.imp_right (hgiven r)
  · intro r hr hmem
    rcases List.mem_cons.mp hmem with heq | hmem
    · exact .inr (hgiven r heq)
    · exact .inl (by simpa [hands, ht, Task.hands] using hmem)

theorem webhookEnqueue (h : s.Covered c modes)
    (hq : s.queues.reserve (s.storeKeyFor c job) job.id num = some (qs, n)) :
    Covered c modes { s with
      queues := qs
      sending := s.sending.erase job
      handing := (job, n) :: s.handing } := by
  have hgiven : ∀ r : Row, r.id = job.id → qs.Given r := fun r => Queues.given_of_reserve hq
  refine (h.reserve hq).control le_rfl s.pass s.task s.seen _ _ (fun _ _ _ hr => .inr (.inr hr))
    (fun _ _ => .inl) ?_ ?_
  · intro r hr hmem
    obtain ⟨x, hx, hxr⟩ := List.mem_map.mp hmem
    rcases List.mem_append.mp hx with hx | hx
    · exact .inl (List.mem_map.mpr ⟨x, List.mem_append_left _ hx, hxr⟩)
    · rcases List.mem_cons.mp hx with rfl | hx
      · exact .inr (hgiven r hxr.symm)
      · exact .inl (List.mem_map.mpr ⟨x, List.mem_append_right _ hx, hxr⟩)
  · intro r hr hmem
    obtain ⟨j, hj', hjr⟩ := List.mem_map.mp hmem
    by_cases hjob : j = job
    · exact .inr (hgiven r (hjob ▸ hjr.symm))
    · exact .inl (List.mem_map.mpr ⟨j, (List.mem_erase_of_ne hjob).mpr hj', hjr⟩)

theorem webhookHandOver (h : s.Covered c modes) (hj : (job, num) ∈ s.handing) :
    Covered c modes { s with
      store := s.store.setQueueKey job.id key
      handing := s.handing.erase (job, num) } := by
  have hh : (job, num) ∈ s.hands := List.mem_append_right _ hj
  refine (h.rekey hh).control le_rfl s.pass s.task s.seen s.sending _
    (fun _ _ _ hr => .inr (.inr hr)) (fun _ _ => .inl) ?_ fun _ _ => .inl
  intro r hr hmem
  obtain ⟨x, hx, hxr⟩ := List.mem_map.mp hmem
  refine .inl (List.mem_map.mpr ⟨x, ?_, hxr⟩)
  rcases List.mem_append.mp hx with hx | hx
  · exact List.mem_append_left _ hx
  · exact List.mem_append_right _ (List.mem_of_mem_erase hx)

end Covered

theorem loadAll_hands (key : String) (now : Time) : (s.loadAll key now).hands = [] := by
  unfold loadAll
  split <;> rfl

theorem loadAll_paging (key : String) (now : Time) : (s.loadAll key now).paging = false := by
  unfold loadAll
  split <;> rfl

theorem clock_le_of_moves (hok : s.steady c e = true) (hm : s.Moves c e t) : s.clock ≤ t.clock := by
  cases hm <;> first
    | exact le_rfl
    | exact decide_eq_true_iff.mp hok
    | exact decide_eq_true_iff.mp (Bool.and_eq_true_iff.mp hok).1

namespace Covered

/-- The first pass leaves a key that can be paged to the second. -/
theorem keep (h : s.Covered c modes) (hw : s.Wired c modes) (hc : s.Counted c modes)
    {counts : List (String × Nat)} {todo : List String} {moved : Bool} (hnow : s.clock ≤ now)
    (hp : s.pass = .first counts todo moved) (ht : s.task = .idle)
    (hg : s.pageable c key now = true) :
    Covered c modes { s with clock := now, pass := .first counts (todo.erase key) moved } := by
  refine h.proceed hnow _ _ (List.Subset.refl _) fun r hr hid hreach => ?_
  rw [hp, ht] at hreach
  have hfirst := hreach.resolve_right id
  rcases hfirst.erase_first key moved with rfl | hrest
  · have hroutes := (pageable_iff_routes hw hr (hc.past r hr.1 hr.2.1 hid)
      (bar_mem_of_pageable hg)).mp hg
    exact .inr (.inr (.inl ⟨hfirst.1, .inr hroutes⟩))
  · exact .inr (.inr (.inl hrest))

/-- A key that the second pass skips has no row left that it would reach. -/
theorem skip (h : s.Covered c modes) (hw : s.Wired c modes) (hc : s.Counted c modes)
    {todo : List (String × Nat)} (hnow : s.clock ≤ now) (hp : s.pass = .second todo)
    (ht : s.task = .idle) (hg : s.pageable c key now = false) :
    Covered c modes
      { s with clock := now, pass := .second (todo.erase (key, n)), task := .idle } := by
  refine h.proceed hnow _ _ (List.nil_subset _) fun r hr hid hreach => ?_
  rw [hp, ht] at hreach
  have hsecond := hreach.resolve_right id
  rcases hsecond.erase_second key n with rfl | hrest
  · have hroutes : r.Routes c.toRouting modes := hsecond.2
    have hbar : '|' ∈ r.queueKey.toList := hroutes ▸ Routing.bar_mem_storeKeyFor
    have hg' := (pageable_iff_routes hw hr (hc.past r hr.1 hr.2.1 hid) hbar).mpr hroutes
    exact absurd (hg.symm.trans hg') (by decide)
  · exact .inr (.inr (.inl hrest))

theorem readFirst (h : s.Covered c modes) (hc : s.Counted c modes) (hnow : s.clock ≤ now)
    (ht : s.task = .firstPage key n) :
    Covered c modes { s with
      clock := now
      task := .enqueue (s.store.queuedPage key {} 0 c.pageSize now)
        (afterFirst c key n (s.store.queuedPage key {} 0 c.pageSize now)) } := by
  refine h.proceed hnow _ _ ?_ fun r hr hid hreach => ?_
  · rw [Task.hands, afterFirst]
    split
    · exact List.nil_subset _
    · split <;> exact List.nil_subset _
  rcases hreach with hreach | hreach
  · exact .inr (.inr (.inl hreach))
  · rw [ht] at hreach
    obtain rfl : r.queueKey = key := hreach
    have hn := hc.task
    rw [ht] at hn
    exact .inr (.inr (.inr (firstPage_reaches hc hnow hn hr hid)))

/-- The rows a spill source reaches are on a registered queue's disk from then on. -/
theorem attach (h : s.Covered c modes) {after : PageCursor} (ht : s.task = .attachTo num key after)
    (hq : q ∈ s.queues.rows) (hn : q.num = num) (hreg : q.registered = true) :
    Covered c modes { s with queues := s.queues.attachSpill num ⟨key, after⟩, task := .idle } := by
  have hattached : Covered c modes { s with queues := s.queues.attachSpill num ⟨key, after⟩ } :=
    h.requeue le_rfl (fun _ _ => Queues.held_of_attachSpill.1)
      fun _ _ hd => .inr (Queues.held_of_attachSpill.2 hd)
  refine hattached.proceed le_rfl _ _ (List.nil_subset _) fun r hr hid hreach => ?_
  dsimp only at hreach
  rw [ht] at hreach
  rcases hreach with hreach | ⟨hkey, hcov⟩
  · exact .inr (.inr (.inl hreach))
  · exact .inr (.inl (Queues.onDisk_of_attachSpill hq hn hreg hkey hcov))

theorem retire (h : s.Covered c modes) (hq : s.queues.find num = some q) (hsrc : q.sources = [])
    (hidle : ∀ r ∈ s.store.rows, r.id ∈ q.given → r.pending = false) :
    Covered c modes { s with queues := s.queues.retire num } := by
  obtain ⟨hmem, hnum⟩ := Table.find_eq_some_iff.mp hq
  have hheld : ∀ r, s.store.Open s.clock r → ∀ x ∈ s.queues.rows, x.num = num →
      r.id ∉ x.given ∧ x.sources = [] := by
    intro r hr x hx hn
    rw [Table.eq_of_id hx hmem (hn.trans hnum.symm)]
    exact ⟨fun hid => absurd (hidle r hr.1 hid) (by simp [hr.2.1]), hsrc⟩
  exact h.requeue le_rfl (fun r hr => (Queues.held_of_retire (hheld r hr)).1)
    fun r hr hd => .inr ((Queues.held_of_retire (hheld r hr)).2 hd)

end Covered

theorem covered_step (hw : s.Wired c modes) (hc : s.Counted c modes) (h : s.Covered c modes)
    (hok : s.steady c e = true) (hm : s.Moves c e t) : t.Covered c modes := by
  have hnow := clock_le_of_moves hok hm
  cases hm with
  | @beginEmpty now hp hnil =>
    refine h.proceed hnow _ _ (List.Subset.refl _) fun r hr _ _ => ?_
    have hkey := Store.key_mem_pendingQueueKeys hr
    simp [hnil] at hkey
  | @begin now counts hp hcounts =>
    refine h.proceed hnow _ _ (List.Subset.refl _) fun r hr _ _ => ?_
    have hkey := hcounts ▸ Store.key_mem_pendingQueueKeys hr
    exact .inr (.inr (.inl ⟨hkey, .inl hkey⟩))
  | keep hp ht hk hg => exact h.keep hw hc hnow hp ht hg
  | @load key now counts todo moved hp ht hk hg =>
    refine h.proceed hnow _ _ ?_ fun r hr hid hreach => ?_
    · rw [loadAll_hands]
      exact List.nil_subset _
    rw [hp, ht] at hreach
    rcases (hreach.resolve_right id).erase_first key true with rfl | hrest
    · exact .inr (.inr (.inr (loadAll_reaches hr (hc.past r hr.1 hr.2.1 hid))))
    · exact .inr (.inr (.inl hrest))
  | @take key now todo n hp ht hk hg =>
    refine h.proceed hnow _ _ (List.nil_subset _) fun r hr hid hreach => ?_
    rw [hp, ht] at hreach
    rcases (hreach.resolve_right id).erase_second key n with hkey | hrest
    · exact .inr (.inr (.inr hkey))
    · exact .inr (.inr (.inl hrest))
  | skip hp ht hk hg => exact h.skip hw hc hnow hp ht hg
  | @recount now counts moved hp ht =>
    refine h.proceed hnow _ _ (List.Subset.refl _) fun r hr hid hreach => ?_
    rw [hp, ht] at hreach
    obtain ⟨hcount, htodo | hroutes⟩ := hreach.resolve_right id
    · cases htodo
    · refine .inr (.inr (.inl ⟨?_, hroutes⟩))
      split
      · exact Store.key_mem_pendingQueueKeys hr
      · exact hcount
  | @readPage now key after page ht hpage =>
    refine h.proceed hnow _ _ ?_ fun r hr hid hreach => ?_
    · rw [Task.hands]
      split <;> exact List.nil_subset _
    rcases hreach with hreach | hreach
    · exact .inr (.inr (.inl hreach))
    · rw [ht] at hreach
      obtain ⟨rfl, hcov⟩ := hreach
      subst hpage
      exact .inr (.inr (.inr (page_reaches hr hcov)))
  | readFirst ht hpage =>
    subst hpage
    exact h.readFirst hc hnow ht
  | @enqueued num next ht =>
    refine h.proceed le_rfl _ _ (by simp [ht, Task.hands]) fun r hr hid hreach => ?_
    rw [ht] at hreach
    exact .inr (.inr (hreach.imp_right fun hr => hr.resolve_left List.not_mem_nil))
  | @again num job jobs next ht hseen =>
    refine h.proceed le_rfl _ _ (by simp [ht, Task.hands]) fun r hr hid hreach => ?_
    rw [ht] at hreach
    rcases hreach with hreach | hreach
    · exact .inr (.inr (.inl hreach))
    · rcases hreach.of_cons with heq | hreach
      · exact .inl (h.seen r hr (heq ▸ hseen))
      · exact .inr (.inr (.inr hreach))
  | reserve ht hq => exact h.enqueue ht hq
  | @handOver job num next q ht hq =>
    have hh : (job, num) ∈ s.hands := by simp [hands, ht, Task.hands]
    refine (h.rekey hh).proceed le_rfl _ _ ?_ fun r hr hid hreach => ?_
    · simp [ht, Task.hands]
    · dsimp only at hreach
      rw [ht] at hreach
      exact .inr (.inr hreach)
  | found ht hq =>
    refine h.proceed le_rfl _ _ (List.nil_subset _) fun r hr hid hreach => ?_
    rw [ht] at hreach
    exact .inr (.inr hreach)
  | missing ht hq =>
    refine h.proceed le_rfl _ _ (List.nil_subset _) fun r hr hid hreach => ?_
    rw [ht] at hreach
    exact .inr (.inr hreach)
  | @attach num key after ht =>
    simp only [steady, ht, List.any_eq_true, Bool.and_eq_true, decide_eq_true_iff] at hok
    obtain ⟨q, hq, hn, hreg⟩ := hok
    exact h.attach ht hq hn hreg
  | finish hp ht =>
    refine h.proceed le_rfl _ _ (List.Subset.refl _) fun r hr hid hreach => ?_
    rw [hp, ht] at hreach
    exact absurd hreach (by simp [Pass.Reaches, Task.Reaches])
  | answer => exact { h with }
  | @complete id status now hst =>
    refine h.restore now fun r hr => .inl ?_
    have hold := ((Store.mem_updateStatus_pending hst).mp ⟨hr.1, hr.2.1⟩).1
    exact ⟨hold.1, hold.2, Row.live_of_le hr.2.2 hnow⟩
  | @refill num src now q page hq hr hsrc hpage =>
    subst hpage
    exact h.requeue hnow (fun r hr => (Queues.held_of_refill hr).1)
      fun r hr => (Queues.held_of_refill hr).2
  | retire hq hsrc hidle => exact h.retire hq hsrc hidle
  | @webhookKnown job now =>
    exact h.proceed hnow _ _ (List.Subset.refl _) fun r hr hid hreach => .inr (.inr hreach)
  | @webhook job now hid =>
    exact h.webhook hw hnow hid
  | webhookEnqueue _ hq => exact h.webhookEnqueue hq
  | webhookHandOver hj => exact h.webhookHandOver hj
  | @cleanup now =>
    refine h.restore now fun r hr => .inl ?_
    exact ⟨Store.mem_of_mem_deleteExpired hr.1, hr.2.1, Row.live_of_le hr.2.2 hnow⟩

namespace Counted

theorem narrow (h : s.Counted c modes) (hnow : s.clock ≤ now) {st : Store}
    (hst : ∀ r ∈ st.rows, r.pending = true → r ∈ s.store.rows) :
    Counted c modes { s with clock := now, store := st } := by
  have hopen : ∀ r, st.Open now r → s.store.Open s.clock r := fun r hr =>
    ⟨hst r hr.1 hr.2.1, hr.2.1, Row.live_of_le hr.2.2 hnow⟩
  have hle : ∀ key, { s with clock := now, store := st }.tally key ≤ s.tally key := by
    refine fun key => tally_le fun r hr => ⟨r, ?_, rfl⟩
    obtain ⟨hr, hkey, hid⟩ := mem_earlier.mp hr
    exact mem_earlier.mpr ⟨hopen r hr, hkey, hid⟩
  exact h.restore now (fun r hr hp => ⟨r, hst r hr hp, hp, rfl, .inl rfl⟩)
    (fun r hr => ⟨r, hopen r hr, rfl, .inl rfl⟩) (h.pass.mono hle) (h.task.mono hle)

theorem reserve (h : s.Counted c modes) {id : String}
    (hq : s.queues.reserve key id num = some (qs, n)) (hh : id ∈ s.hands.map (·.1.id)) :
    Counted c modes { s with queues := qs } := by
  refine h.requeue le_rfl fun q hmem r hr hid => ?_
  rcases Queues.given_of_mem_reserve hq hmem hid with rfl | ⟨q₀, hq₀, hid₀⟩
  · exact .inr hh
  · exact h.settled q₀ hq₀ r hr hid₀

/-- What a queue loads from its own source is routed to it. -/
theorem refill (hw : s.Wired c modes) (h : s.Counted c modes) {limit : Nat} {src : Source}
    (hnow : s.clock ≤ now) (hq : s.queues.find num = some q) (hsrc : src ∈ q.sources) :
    Counted c modes { s with
      clock := now
      queues := s.queues.update num
        (fun q => q.refill src (s.store.queuedPage src.key src.after 0 limit now) limit)
        fun _ => ⟨rfl, rfl⟩ } := by
  refine h.requeue hnow fun x hx r hr hid => ?_
  rcases Table.mem_update.mp hx with ⟨hx, -⟩ | ⟨q₀, hq₀, hn, rfl⟩
  · exact h.settled x hx r (hr.mono hnow) hid
  · rcases List.mem_append.mp hid with hid | hid
    · obtain ⟨hmem, hnum⟩ := Table.find_eq_some_iff.mp hq
      have hpage := Store.asQueued_mem_of_id_mem hr.1 hid
      obtain ⟨r₀, hr₀, -, heq⟩ := Store.mem_queuedPage hpage
      obtain ⟨hmem₀, -, hkey, -⟩ := Store.mem_pendingUnder.mp hr₀
      have hsame : r.job.asQueued.id = r₀.job.asQueued.id := congrArg Job.id heq
      obtain rfl : r = r₀ := Table.eq_of_id hr.1 hmem₀ hsame
      exact .inl (hw.routes_of_key hr.1 hr.2.1 hmem
        (hkey.trans ((hw.owned q hmem).sources src hsrc)))
    · exact h.settled q₀ hq₀ r (hr.mono hnow) hid

theorem update (h : s.Counted c modes) {f : Queue → Queue} {hf}
    (hgiven : ∀ q, (f q).given = q.given) :
    Counted c modes { s with queues := s.queues.update num f hf } := by
  refine h.requeue le_rfl fun x hx r hr hid => ?_
  rcases Table.mem_update.mp hx with ⟨hx, -⟩ | ⟨q₀, hq₀, -, rfl⟩
  · exact h.settled x hx r hr hid
  · exact h.settled q₀ hq₀ r hr (hgiven q₀ ▸ hid)

theorem hands_same {task : Task} (ht : s.task = task) (hsame : task.hands = next.hands) (r : Row)
    (_ : s.store.Open now r) (hmem : r.id ∈ s.hands.map (·.1.id)) :
    r.Routes c.toRouting modes ∨ r.id ∈ (next.hands ++ s.handing).map (·.1.id) := by
  rw [hands, ht, hsame] at hmem
  exact .inr hmem

theorem tally_rekey {id : String}
    (hkeep : ∀ r, s.store.Open s.clock r → r.id = id → r.id ∉ s.webhooks → r.queueKey = key)
    (k : String) : { s with store := s.store.setQueueKey id key }.tally k ≤ s.tally k := by
  refine tally_le fun r hr => ?_
  obtain ⟨hr, hkey, hid⟩ := mem_earlier.mp hr
  rcases Store.open_setQueueKey hr with ⟨hr, -⟩ | ⟨r₀, hr₀, hid₀, rfl⟩
  · exact ⟨r, mem_earlier.mpr ⟨hr, hkey, hid⟩, rfl⟩
  · exact ⟨r₀, mem_earlier.mpr ⟨hr₀, (hkeep r₀ hr₀ hid₀ hid).trans hkey, hid⟩, rfl⟩

theorem rekey (h : s.Counted c modes)
    (hh : Handed (c.toRouting.storeKeyFor modes) s.store s.queues (job, num))
    (hq : s.queues.find num = some q)
    (hpass : s.pass.Bounds { s with store := s.store.setQueueKey job.id q.storeKey }.tally)
    (htask : s.task.Bounds { s with store := s.store.setQueueKey job.id q.storeKey }.tally) :
    Counted c modes { s with store := s.store.setQueueKey job.id q.storeKey } := by
  refine h.restore s.clock ?_ ?_ hpass htask
  · intro r hr hp
    rcases Store.mem_setQueueKey.mp hr with ⟨hr, -⟩ | ⟨r₀, hr₀, hid, rfl⟩
    · exact ⟨r, hr, hp, rfl, .inl rfl⟩
    · exact ⟨r₀, hr₀, hp, rfl, .inr (hh.routes hq hr₀ hp hid)⟩
  · intro r hr
    rcases Store.open_setQueueKey hr with ⟨hr, -⟩ | ⟨r₀, hr₀, hid, rfl⟩
    · exact ⟨r, hr, rfl, .inl rfl⟩
    · exact ⟨r₀, hr₀, rfl, .inr (hh.routes hq hr₀.1 hr₀.2.1 hid)⟩

theorem routes_of_rekey (hh : Handed (c.toRouting.storeKeyFor modes) s.store s.queues (job, num))
    (hq : s.queues.find num = some q) (hr : (s.store.setQueueKey job.id q.storeKey).Open now r)
    (hid : r.id = job.id) :
    r.Routes c.toRouting modes := by
  rcases Store.open_setQueueKey hr with ⟨-, hne⟩ | ⟨r₀, hr₀, hid₀, rfl⟩
  · exact absurd hid hne
  · exact hh.routes hq hr₀.1 hr₀.2.1 hid₀

theorem webhook (h : s.Counted c modes) (hnow : s.clock ≤ now) (hid : s.unused job.id = true)
    (hafter : ∀ r ∈ s.store.rows, (cursorAt job).covers r.job = true) :
    Counted c modes { s with
      clock := now
      store := (s.store.checkOrInsert c.env job now).1
      webhooks := job.id :: s.webhooks
      sending := job :: s.sending } := by
  obtain ⟨hfree, -, -, -, hgiven⟩ := unused_iff.mp hid
  have hnew : ∀ r ∈ s.store.rows, r.id ≠ job.id := Table.find_eq_none_iff.mp hfree
  -- a row that is not a webhook job's was stored before
  have hold : ∀ r ∈ (s.store.checkOrInsert c.env job now).1.rows, r.id ∉ job.id :: s.webhooks →
      r ∈ s.store.rows ∧ r.id ∉ s.webhooks := by
    intro r hr hid
    rcases Store.mem_checkOrInsert hr with hr | rfl
    · exact ⟨hr, fun hmem => hid (List.mem_cons_of_mem _ hmem)⟩
    · exact absurd List.mem_cons_self hid
  have hle : ∀ key, Recovery.tally { s with
      clock := now
      store := (s.store.checkOrInsert c.env job now).1
      webhooks := job.id :: s.webhooks
      sending := job :: s.sending } key ≤ s.tally key := by
    refine fun key => tally_le fun r hr => ⟨r, ?_, rfl⟩
    obtain ⟨hr, hkey, hid⟩ := mem_earlier.mp hr
    obtain ⟨hmem, hid⟩ := hold r hr.1 hid
    exact mem_earlier.mpr ⟨⟨hmem, hr.2.1, Row.live_of_le hr.2.2 hnow⟩, hkey, hid⟩
  exact {
    order := by
      intro r hr w hw hpr hpw hidr hidw
      obtain ⟨hr, hidr⟩ := hold r hr hidr
      rcases Store.mem_checkOrInsert hw with hw | rfl
      · exact h.order r hr w hw hpr hpw hidr ((List.mem_cons.mp hidw).resolve_left (hnew w hw))
      · have hle := (PageCursor.covers_iff _ _).mp (hafter r hr)
        exact lt_of_le_of_ne hle fun heq => hnew r hr (pos_injective heq)
    past := fun r hr hp hid => h.past r (hold r hr hid).1 hp (hold r hr hid).2
    keys := by
      intro r hr hp hid hbar
      rcases Store.mem_checkOrInsert hr with hr | rfl
      · exact h.keys r hr hp ((List.mem_cons.mp hid).resolve_left (hnew r hr)) hbar
      · exact absurd hbar (by simp [Store.newRow])
    settled := by
      intro q hq r hr hid
      rcases Store.mem_checkOrInsert hr.1 with hmem | rfl
      · exact h.settled q hq r ⟨hmem, hr.2.1, Row.live_of_le hr.2.2 hnow⟩ hid
      · exact absurd hid (hgiven q hq)
    second := by
      intro hl r hr hid
      obtain ⟨hmem, hid⟩ := hold r hr.1 hid
      exact h.second hl r ⟨hmem, hr.2.1, Row.live_of_le hr.2.2 hnow⟩ hid
    pass := h.pass.mono hle
    task := h.task.mono hle }

end Counted

/-- The counts stay good while recovery writes a key: in its first pass it will count again, and in
its second one the row already lies under that key. -/
theorem bounds_of_handOver (hw : s.Wired c modes) (h : s.Counted c modes)
    (ht : s.task = .handoff job num next) (hq : s.queues.find num = some q) :
    s.pass.Bounds { s with store := s.store.setQueueKey job.id q.storeKey }.tally := by
  have hh := hw.task
  rw [ht] at hh
  have hquiet : s.pass.quiet = false := by
    rw [← Bool.not_eq_true]
    exact fun hquiet => absurd (hw.quiet hquiet) (by simp [ht])
  have hpass := h.pass
  have hsecond := h.second
  cases hp : s.pass with
  | start | done => simp [hp, Pass.quiet] at hquiet
  | first counts todo moved =>
    cases moved with
    | true => trivial
    | false => simp [hp, Pass.quiet] at hquiet
  | second todo =>
    rw [hp] at hpass hsecond
    refine hpass.mono (Counted.tally_rekey fun r hr hid hnot => ?_)
    exact (hsecond (.inl rfl) r hr hnot).symm.trans (hh.1.routes hq hr.1 hr.2.1 hid)

theorem Counted.handOver (h : s.Counted c modes) (hw : s.Wired c modes)
    (ht : s.task = .handoff job num next) (hq : s.queues.find num = some q) :
    Counted c modes { s with store := s.store.setQueueKey job.id q.storeKey, task := next } := by
  have hh := hw.task
  rw [ht] at hh
  have htask := h.task
  rw [ht] at htask
  have hrekey := h.rekey hh.1 hq (bounds_of_handOver hw h ht hq) (by rw [ht]; exact htask)
  refine hrekey.proceed le_rfl _ _ _ _ (fun r hr hmem => ?_) ?_ (htask _)
  swap
  · dsimp only
    rw [ht]
    exact id
  by_cases hid : r.id = job.id
  · exact .inl (Counted.routes_of_rekey hh.1 hq hr hid)
  · rw [hands] at hmem
    dsimp only at hmem
    rw [ht] at hmem
    exact .inr ((List.mem_cons.mp hmem).resolve_left hid)

theorem Counted.webhookEnqueue (h : s.Counted c modes)
    (hq : s.queues.reserve key job.id num = some (qs, n)) :
    Counted c modes { s with
      queues := qs
      sending := s.sending.erase job
      handing := (job, n) :: s.handing } := by
  have hnext : Counted c modes
      { s with sending := s.sending.erase job, handing := (job, n) :: s.handing } := by
    refine h.proceed le_rfl _ _ _ _ (fun r _ hmem => .inr (List.map_subset _ ?_ hmem)) id h.task
    exact List.append_subset.mpr ⟨List.subset_append_left _ _,
      List.subset_append_of_subset_right _ (List.subset_cons_self _ _)⟩
  exact hnext.reserve hq
    (List.mem_map_of_mem (List.mem_append_right _ List.mem_cons_self))

/-- A webhook job is handed over; what recovery counts leaves it out. -/
theorem Counted.webhookHandOver (h : s.Counted c modes) (hw : s.Wired c modes)
    (hj : (job, num) ∈ s.handing) (hq : s.queues.find num = some q) :
    Counted c modes { s with
      store := s.store.setQueueKey job.id q.storeKey
      handing := s.handing.erase (job, num) } := by
  obtain ⟨hwid, hh⟩ := hw.handing _ hj
  have hle : ∀ key, { s with store := s.store.setQueueKey job.id q.storeKey }.tally key ≤
      s.tally key := Counted.tally_rekey fun r _ hid hnot => absurd (hid ▸ hwid) hnot
  have hrekey := h.rekey hh hq (h.pass.mono hle) (h.task.mono hle)
  refine hrekey.proceed le_rfl _ _ _ _ (fun r hr hmem => ?_) id hrekey.task
  by_cases hid : r.id = job.id
  · exact .inl (Counted.routes_of_rekey hh hq hr hid)
  · obtain ⟨x, hx, hxr⟩ := List.mem_map.mp hmem
    refine .inr (List.mem_map.mpr ⟨x, ?_, hxr⟩)
    rcases List.mem_append.mp hx with hx | hx
    · exact List.mem_append_left _ hx
    · have hne : x ≠ (job, num) := fun heq => hid (hxr ▸ congrArg (·.1.id) heq)
      exact List.mem_append_right _ ((List.mem_erase_of_ne hne).mpr hx)

theorem tally_le_of_counted {p : String × Nat} (hp : p ∈ s.store.pendingQueueKeys now) :
    { s with clock := now }.tally p.1 ≤ p.2 := by
  rw [(Store.mem_pendingQueueKeys.mp hp).2]
  exact List.length_filter_le _ _

/-- Once the first pass is over, every earlier row lies under the key it routes to. -/
theorem routes_after_first (hw : s.Wired c modes) (h : s.Counted c modes) (hc : s.Covered c modes)
    {counts : List (String × Nat)} {moved : Bool} (hp : s.pass = .first counts [] moved)
    (ht : s.task = .idle) (hr : s.store.Open s.clock r) (hid : r.id ∉ s.webhooks) :
    r.Routes c.toRouting modes := by
  rcases hc.stored r hr hid with ⟨q, hq, -, hmem⟩ | ⟨q, hq, -, src, hsrc, hkey, -⟩ | hpass | htask
  · refine (h.settled q hq r hr hmem).resolve_right fun hmem => hid ?_
    obtain ⟨x, hx, hxr⟩ := List.mem_map.mp hmem
    rw [hands, ht] at hx
    exact hxr ▸ (hw.handing x hx).1
  · exact hw.routes_of_key hr.1 hr.2.1 hq (hkey.symm.trans ((hw.owned q hq).sources src hsrc))
  · rw [hp] at hpass
    exact hpass.2.resolve_left List.not_mem_nil
  · rw [ht] at htask
    exact htask.elim

theorem counted_step (hw : s.Wired c modes) (h : s.Counted c modes) (hc : s.Covered c modes)
    (hok : s.steady c e = true) (hm : s.Moves c e t) : t.Counted c modes := by
  have hnow := clock_le_of_moves hok hm
  have hpass := h.pass.mono (Counted.tally_advance s hnow)
  have htask := h.task.mono (Counted.tally_advance s hnow)
  cases hm with
  | @beginEmpty now hp hnil =>
    refine h.control hnow _ _ _ _ _ (fun _ _ => .inr) (fun _ r hr => ?_) trivial htask
    have hkey := Store.key_mem_pendingQueueKeys hr
    simp [hnil] at hkey
  | @begin now counts hp hcounts =>
    refine h.control hnow _ _ _ _ _ (fun _ _ => .inr) (fun hl => ?_) ?_ htask
    · exact fun r hr => h.second (.inr (hl.resolve_left nofun)) r (hr.mono hnow)
    · exact fun p hp => tally_le_of_counted (hcounts ▸ hp)
  | @keep key now counts todo moved hp ht hk hg =>
    refine h.control hnow _ _ _ _ _ (fun _ _ => .inr) (fun hl => ?_) ?_ htask
    · exact fun r hr => h.second (.inr (hl.resolve_left nofun)) r (hr.mono hnow)
    rw [hp] at hpass
    cases moved with
    | false => exact hpass
    | true => trivial
  | @load key now counts todo moved hp ht hk hg =>
    refine h.control hnow _ _ _ _ _ ?_ (fun hl => ?_) trivial ?_
    · exact Counted.hands_same ht (loadAll_hands key now).symm
    · rw [loadAll_paging] at hl
      exact hl.elim nofun nofun
    · unfold loadAll
      split
      · exact fun _ => trivial
      · trivial
  | @take key now todo n hp ht hk hg =>
    rw [hp] at hpass
    refine h.control hnow _ _ _ _ _ (Counted.hands_same ht rfl) ?_
      (fun p hp => hpass p (List.mem_of_mem_erase hp)) (hpass (key, n) hk)
    exact fun _ r hr => h.second (.inl (by rw [hp]; rfl)) r (hr.mono hnow)
  | @skip key now todo n hp ht hk hg =>
    rw [hp] at hpass
    refine h.control hnow _ _ _ _ _ (Counted.hands_same ht rfl) ?_
      (fun p hp => hpass p (List.mem_of_mem_erase hp)) trivial
    exact fun _ r hr => h.second (.inl (by rw [hp]; rfl)) r (hr.mono hnow)
  | @recount now counts moved hp ht =>
    refine h.control hnow _ _ _ _ _ (fun _ _ => .inr) ?_ ?_ htask
    · exact fun _ r hr hid => routes_after_first hw h hc hp ht (hr.mono hnow) hid
    · rw [hp] at hpass
      cases moved with
      | false => exact hpass
      | true => exact fun p hp => tally_le_of_counted hp
  | @readPage now key after page ht hpage =>
    refine h.proceed hnow _ _ _ _ (fun r _ hmem => ?_) ?_ ?_
    · rw [hands, ht] at hmem
      refine .inr (List.map_subset _ ?_ hmem)
      exact List.subset_append_right _ _
    · rw [Task.paging]
      split <;> exact nofun
    · intro tally
      split <;> trivial
  | @readFirst now key n page ht hpage =>
    refine h.proceed hnow _ _ _ _ (fun r _ hmem => ?_) (fun _ => by rw [ht]; rfl) ?_
    · rw [hands, ht] at hmem
      refine .inr (List.map_subset _ ?_ hmem)
      exact List.subset_append_right _ _
    · intro tally
      unfold afterFirst
      split
      · trivial
      · split <;> trivial
  | @enqueued num next ht =>
    have htask := h.task
    rw [ht] at htask
    exact h.proceed le_rfl _ _ _ _ (Counted.hands_same ht rfl) (by rw [ht]; exact id) (htask _)
  | @again num job jobs next ht hseen =>
    have htask := h.task
    rw [ht] at htask
    exact h.proceed le_rfl _ _ _ _ (Counted.hands_same ht rfl) (by rw [ht]; exact id) htask
  | @reserve num job jobs next qs n ht hq =>
    have htask := h.task
    rw [ht] at htask
    have hnext : Counted c modes
        { s with seen := job.id :: s.seen, task := .handoff job n (.enqueue jobs next) } := by
      refine h.proceed le_rfl _ _ _ _ (fun r _ hmem => ?_) (by rw [ht]; exact id) fun _ => htask
      rw [hands, ht] at hmem
      exact .inr (List.mem_cons_of_mem _ hmem)
    exact hnext.reserve hq List.mem_cons_self
  | handOver ht hq => exact h.handOver hw ht hq
  | @found key last q ht hq =>
    exact h.proceed le_rfl _ _ _ _ (Counted.hands_same ht rfl) nofun trivial
  | @missing key last ht hq =>
    exact h.proceed le_rfl _ _ _ _ (Counted.hands_same ht rfl) nofun trivial
  | @attach num key after ht =>
    have hnext : Counted c modes { s with task := .idle } :=
      h.proceed le_rfl _ _ _ _ (Counted.hands_same ht rfl) nofun trivial
    exact hnext.update fun _ => rfl
  | finish hp ht =>
    refine h.control le_rfl _ _ _ _ _ (fun _ _ => .inr) ?_ trivial h.task
    exact fun _ r hr => h.second (.inl (by rw [hp]; rfl)) r hr
  | answer => exact { h with }
  | @complete id status now hst =>
    refine h.narrow (decide_eq_true_iff.mp hok) fun r hr hp => ?_
    exact ((Store.mem_updateStatus_pending hst).mp ⟨hr, hp⟩).1.1
  | @refill num src now q page hq hr hsrc hpage =>
    subst hpage
    exact .refill hw h hnow hq hsrc
  | retire => exact h.update fun _ => rfl
  | @webhookKnown job now =>
    exact h.proceed hnow _ _ _ _ (fun _ _ => .inr) id htask
  | @webhook job now hid =>
    simp only [steady, Bool.and_eq_true, decide_eq_true_iff, List.all_eq_true] at hok
    exact h.webhook hok.1 hid hok.2
  | webhookEnqueue _ hq => exact h.webhookEnqueue hq
  | webhookHandOver hj hq => exact h.webhookHandOver hw hj hq
  | cleanup =>
    exact h.narrow (decide_eq_true_iff.mp hok) fun r hr _ => Store.mem_of_mem_deleteExpired hr

end Recovery

/-- A row recovery can find: a key with a bar is one that its job's hand-off has written, and the
job was created after the zero cursor, where every paging begins. -/
def Row.Recoverable (c : Routing) (r : Row) : Prop :=
  r.Keyed c ∧ ({} : PageCursor).covers r.job = false

namespace Recovery

variable {c : RecoveryConfig} {modes : String → Bool} {s t : Recovery} {e : Event}

structure Sound (c : RecoveryConfig) (modes : String → Bool) (s : Recovery) : Prop where
  wired : s.Wired c modes
  counted : s.Counted c modes
  covered : s.Covered c modes

theorem sound_new {st : Store} {now : Time}
    (hst : ∀ r ∈ st.rows, r.pending = true → r.Recoverable c.toRouting) :
    (new st now).Sound c ((new st now).mode c) where
  wired := {
    mode := rfl
    keyed := fun r hr hp => (hst r hr hp).1
    owned := fun _ hq => absurd hq List.not_mem_nil
    one := fun _ hq => absurd hq List.not_mem_nil
    task := trivial
    sending := fun _ hj => absurd hj List.not_mem_nil
    handing := fun _ hx => absurd hx List.not_mem_nil
    quiet := fun _ => rfl }
  counted := {
    order := fun _ _ _ _ _ _ _ hw => absurd hw List.not_mem_nil
    past := fun r hr hp _ => (hst r hr hp).2
    keys := fun _ _ _ hw => absurd hw List.not_mem_nil
    settled := fun _ hq => absurd hq List.not_mem_nil
    second := fun h => absurd h (by simp [new, Pass.late, Task.paging])
    pass := trivial
    task := trivial }
  covered := {
    stored := fun _ _ _ => .inr (.inr (.inl trivial))
    seen := fun _ _ hs => absurd hs List.not_mem_nil
    handed := fun _ _ hx => absurd hx List.not_mem_nil
    sent := fun _ _ hw => absurd hw List.not_mem_nil }

/-- Where the second pass reads a first page, everything open under its key routes to it. -/
theorem Sound.routes_of_firstPage (h : s.Sound c modes) {key : String} {n : Nat} {now : Time}
    (ht : s.task = .firstPage key n) (hnow : s.clock ≤ now) {r : Row}
    (hr : r ∈ s.store.pendingUnder key now) : r.Routes c.toRouting modes := by
  obtain ⟨hmem, hlive, hkey, hp⟩ := Store.mem_pendingUnder.mp hr
  have hbar := h.wired.task
  rw [ht] at hbar
  by_cases hid : r.id ∈ s.webhooks
  · exact h.counted.keys r hmem hp hid (hkey ▸ hbar)
  · exact h.counted.second (.inr (by rw [ht]; rfl)) r ⟨hmem, hp, Row.live_of_le hlive hnow⟩ hid

theorem sound_step (h : s.Sound c modes) (hok : s.steady c e = true) (hstep : s.step c e = some t) :
    t.Sound c modes := by
  have hm := moves_of_step hstep
  refine ⟨wired_step h.wired hok hm ?_, counted_step h.wired h.counted h.covered hok hm,
    covered_step h.wired h.counted h.covered hok hm⟩
  exact fun key n now ht hnow r hr => h.routes_of_firstPage ht hnow hr

theorem Sound.given_unique (h : s.Sound c modes) {r : Row} (hr : s.store.Open s.clock r)
    (hg : s.queues.Given r) :
    ∃! q, q ∈ s.queues.rows ∧ q.registered = true ∧ r.id ∈ q.given := by
  obtain ⟨q, hq, hreg, hmem⟩ := hg
  refine ⟨q, ⟨hq, hreg, hmem⟩, fun x ⟨hx, hxreg, hxmem⟩ => ?_⟩
  have hkey := (h.wired.owned q hq).given r hr.1 hr.2.1 hmem
  have hxkey := (h.wired.owned x hx).given r hr.1 hr.2.1 hxmem
  exact h.wired.one x hx q hq hxreg hreg (hxkey.symm.trans hkey)

/-- In every run of recovery in which no destination changes its mode, no queue retires between its
lookup and the attachment of a source, webhook jobs sort after the stored ones and the clock does
not run backwards: once recovery has returned, every unexpired pending job is with exactly one
running queue, on disk under a source of one, or a webhook still to be handed over. -/
theorem leaves_nothing_behind {st : Store} {now : Time} {es : List Event}
    (hst : ∀ r ∈ st.rows, r.pending = true → r.Recoverable c.toRouting)
    (hok : Trace.Along (step c) (fun s e => s.steady c e = true) (new st now) es)
    (hrun : Trace.exec (step c) (new st now) es = some s) (hdone : s.pass = .done) :
    ∀ r ∈ s.store.rows, r.pending = true → r.live s.clock = true →
      (∃! q, q ∈ s.queues.rows ∧ q.registered = true ∧ r.id ∈ q.given) ∨
        (∃ q ∈ s.queues.rows, q.registered = true ∧
          ∃ src ∈ q.sources, src.key = r.queueKey ∧ src.after.covers r.job = false) ∨
        ∃ j ∈ s.sending, j.id = r.id := by
  intro r hmem hp hlive
  have h : s.Sound c ((new st now).mode c) :=
    Trace.exec_invariant sound_step (sound_new hst) hok hrun
  have hr : s.store.Open s.clock r := ⟨hmem, hp, hlive⟩
  by_cases hid : r.id ∈ s.webhooks
  · rcases h.covered.sent r hr hid with hg | hs
    · exact .inl (h.given_unique hr hg)
    · exact .inr (.inr (List.mem_map.mp hs))
  · have hidle : s.task = .idle := h.wired.quiet (by rw [hdone]; rfl)
    rcases h.covered.stored r hr hid with hg | hd | hpass | htask
    · exact .inl (h.given_unique hr hg)
    · exact .inr (.inl hd)
    · rw [hdone] at hpass
      exact hpass.elim
    · rw [hidle] at htask
      exact htask.elim

/-- Two tenants of one destination, pages of two jobs. -/
def twoTenants : RecoveryConfig where
  domainKey := id
  sha256String user := if user = "ann:" then "a" else "b"
  sha256_plain user := by split <;> decide
  env := { hashKey := id }
  pageSize := 2
  pageSize_pos := by decide

def tenantRow (id user key : String) (createdAt : Int) : Row where
  job := { id, userID := user, url := "api", createdAt }
  hash := id
  queueKey := key
  expiresAt := 100

def tenantStore : Store :=
  ⟨[tenantRow "1" "ann" "api|a" 1, tenantRow "2" "bob" "api|b" 2], by decide, by decide⟩

/-- Recovery hands over the first tenant's job; its answer switches the destination to one shared
queue before recovery asks whether the second tenant's key can be paged. -/
def flipped : List Event :=
  [.count 0, .test "api|a" 0, .test "api|b" 0, .recount 0, .test "api|a" 0, .read 0, .enqueue 0,
    .handOver, .enqueue 0, .answer "api" false, .complete "1" .completed 0, .test "api|b" 0,
    .finish]

/-- The second tenant's job stays behind, pending, in no queue and under no source. -/
theorem flipped_leaves_job :
    ∃ s, Trace.exec (step twoTenants) (new tenantStore 0) flipped = some s ∧
    s.pass = .done ∧ s.sending = [] ∧ ∃ r ∈ s.store.rows, r.pending = true ∧ r.live s.clock = true ∧
      ∀ q ∈ s.queues.rows, r.id ∉ q.given ∧ q.sources = [] := by
  decide +kernel

/-- Three jobs of one tenant: a page of two is handed over and the rest attached on disk. -/
def longStore : Store :=
  ⟨[tenantRow "1" "ann" "api|a" 1, tenantRow "2" "ann" "api|a" 2, tenantRow "3" "ann" "api|a" 3],
    by decide, by decide⟩

def paged : List Event :=
  [.count 0, .test "api|a" 0, .recount 0, .test "api|a" 0, .read 0, .enqueue 0, .handOver,
    .enqueue 0, .handOver, .enqueue 0, .lookup, .attach, .finish]

theorem longStore_recoverable :
    ∀ r ∈ longStore.rows, r.pending = true → r.Recoverable twoTenants.toRouting := by
  intro r hr _
  simp only [longStore, List.mem_cons, List.not_mem_nil, or_false] at hr
  rcases hr with rfl | rfl | rfl <;> exact ⟨fun _ => ⟨true, rfl⟩, by decide⟩

theorem paged_leaves_nothing :
    ∃ s, Trace.exec (step twoTenants) (new longStore 0) paged = some s ∧ s.pass = .done ∧
      (∃ r ∈ s.store.rows, r.pending = true ∧ r.live s.clock = true) ∧
      ∀ r ∈ s.store.rows, r.pending = true → r.live s.clock = true →
        (∃! q, q ∈ s.queues.rows ∧ q.registered = true ∧ r.id ∈ q.given) ∨
          (∃ q ∈ s.queues.rows, q.registered = true ∧
            ∃ src ∈ q.sources, src.key = r.queueKey ∧ src.after.covers r.job = false) ∨
          ∃ j ∈ s.sending, j.id = r.id := by
  obtain ⟨s, hs, hdone, hsome⟩ : ∃ s,
      Trace.exec (step twoTenants) (new longStore 0) paged = some s ∧ s.pass = .done ∧
      ∃ r ∈ s.store.rows, r.pending = true ∧ r.live s.clock = true := by decide +kernel
  have hok : Trace.Along (step twoTenants) (fun s e => s.steady twoTenants e = true)
      (new longStore 0) paged := by
    decide +kernel
  exact ⟨s, hs, hdone, hsome, leaves_nothing_behind longStore_recoverable hok hs hdone⟩

end Recovery

end Aquifer
