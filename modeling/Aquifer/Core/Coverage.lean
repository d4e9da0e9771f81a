import Aquifer.Core.Wiring

/-! Recovery loses sight of no stored job: each one is given to a queue, on disk under a source or
still ahead of recovery. -/
namespace Aquifer

/-- A registered queue was given the row's job. -/
def Queues.Given (qs : Queues) (r : Row) : Prop :=
  ∃ q ∈ qs.rows, q.registered = true ∧ r.id ∈ q.given

/-- A source attached to a registered queue has the row past its cursor. -/
def Queues.OnDisk (qs : Queues) (r : Row) : Prop :=
  ∃ q ∈ qs.rows, q.registered = true ∧
    ∃ src ∈ q.sources, src.key = r.queueKey ∧ src.after.covers r.job = false

/-- What recovery is doing still comes to the row. -/
def Task.Reaches (r : Row) : Task → Prop
  | .idle => False
  | .enqueue jobs next => r.id ∈ jobs.map Job.id ∨ next.Reaches r
  | .handoff _ _ next => next.Reaches r
  | .pageAll key after | .attachTo _ key after => r.queueKey = key ∧ after.covers r.job = false
  | .firstPage key _ => r.queueKey = key
  | .attach key last => r.queueKey = key ∧ (cursorAt last).covers r.job = false

/-- A key that recovery has still to take, or will page in its second pass, has the row. -/
def Pass.Reaches (c : Routing) (modes : String → Bool) (r : Row) : Pass → Prop
  | .start => True
  | .first counts todo _ =>
    r.queueKey ∈ counts.map Prod.fst ∧ (r.queueKey ∈ todo ∨ r.Routes c modes)
  | .second todo => r.queueKey ∈ todo.map Prod.fst ∧ r.Routes c modes
  | .done => False

/-- Stored, pending and unexpired. -/
def Store.Open (st : Store) (now : Time) (r : Row) : Prop :=
  r ∈ st.rows ∧ r.pending = true ∧ r.live now = true

theorem Row.live_of_le {r : Row} {now now' : Time} (h : r.live now' = true) (hle : now ≤ now') :
    r.live now = true := by
  simp only [Row.live, decide_eq_true_iff] at h ⊢
  exact lt_of_le_of_lt (Int.ediv_le_ediv (by decide) hle) h

namespace Store.Open

variable {st : Store} {now now' : Time} {r : Row}

theorem mono (h : st.Open now' r) (hle : now ≤ now') : st.Open now r :=
  ⟨h.1, h.2.1, Row.live_of_le h.2.2 hle⟩

theorem mem_pendingUnder (h : st.Open now r) : r ∈ st.pendingUnder r.queueKey now :=
  Store.mem_pendingUnder.mpr ⟨h.1, h.2.2, rfl, h.2.1⟩

end Store.Open

namespace Recovery

/-- Nothing open is out of sight: what was stored before recovery, what it has enqueued, what is
being handed over and the webhook jobs stored since. -/
structure Covered (c : RecoveryConfig) (modes : String → Bool) (s : Recovery) : Prop where
  stored : ∀ r, s.store.Open s.clock r → r.id ∉ s.webhooks →
    s.queues.Given r ∨ s.queues.OnDisk r ∨ s.pass.Reaches c.toRouting modes r ∨ s.task.Reaches r
  seen : ∀ r, s.store.Open s.clock r → r.id ∈ s.seen → s.queues.Given r
  handed : ∀ r, s.store.Open s.clock r → r.id ∈ s.hands.map (·.1.id) → s.queues.Given r
  sent : ∀ r, s.store.Open s.clock r → r.id ∈ s.webhooks →
    s.queues.Given r ∨ r.id ∈ s.sending.map Job.id

namespace Covered

variable {c : RecoveryConfig} {modes : String → Bool} {s t : Recovery} {now : Time}

/-- Recovery and the webhooks go on: what recovery came to before it still does, or the row has
found its place. -/
theorem control (h : s.Covered c modes) (hnow : s.clock ≤ now) (pass : Pass) (task : Task)
    (seen : List String) (sending : List Job) (handing : List (Job × Nat))
    (hreach : ∀ r, s.store.Open now r → r.id ∉ s.webhooks →
      s.pass.Reaches c.toRouting modes r ∨ s.task.Reaches r →
      s.queues.Given r ∨ s.queues.OnDisk r ∨ pass.Reaches c.toRouting modes r ∨ task.Reaches r)
    (hseen : ∀ r, s.store.Open now r → r.id ∈ seen → r.id ∈ s.seen ∨ s.queues.Given r)
    (hhands : ∀ r, s.store.Open now r → r.id ∈ (task.hands ++ handing).map (·.1.id) →
      r.id ∈ s.hands.map (·.1.id) ∨ s.queues.Given r)
    (hsent : ∀ r, s.store.Open now r → r.id ∈ s.sending.map Job.id →
      r.id ∈ sending.map Job.id ∨ s.queues.Given r) :
    Covered c modes { s with clock := now, pass, task, seen, sending, handing } where
  stored r hr hid := by
    rcases h.stored r (hr.mono hnow) hid with hg | hd | hp
    · exact .inl hg
    · exact .inr (.inl hd)
    · exact hreach r hr hid hp
  seen r hr hid := (hseen r hr hid).elim (h.seen r (hr.mono hnow)) id
  handed r hr hid := (hhands r hr hid).elim (h.handed r (hr.mono hnow)) id
  sent r hr hid := by
    rcases h.sent r (hr.mono hnow) hid with hg | hs
    · exact .inl hg
    · exact (hsent r hr hs).symm

/-- Only recovery goes on, with no new hand-off. -/
theorem proceed (h : s.Covered c modes) (hnow : s.clock ≤ now) (pass : Pass) (task : Task)
    (hhands : task.hands ⊆ s.task.hands)
    (hreach : ∀ r, s.store.Open now r → r.id ∉ s.webhooks →
      s.pass.Reaches c.toRouting modes r ∨ s.task.Reaches r →
      s.queues.Given r ∨ s.queues.OnDisk r ∨ pass.Reaches c.toRouting modes r ∨ task.Reaches r) :
    Covered c modes { s with clock := now, pass, task } := by
  refine h.control hnow pass task s.seen s.sending s.handing hreach (fun _ _ => .inl) ?_
    fun _ _ => .inl
  intro r _ hid
  have hsub : task.hands ++ s.handing ⊆ s.hands :=
    List.append_subset.mpr ⟨List.Subset.trans hhands (List.subset_append_left _ _),
      List.subset_append_right _ _⟩
  exact .inl (List.map_subset _ hsub hid)

/-- The queues change without letting go of anything. -/
theorem requeue (h : s.Covered c modes) (hnow : s.clock ≤ now) {qs : Queues}
    (hgiven : ∀ r, s.store.Open now r → s.queues.Given r → qs.Given r)
    (hdisk : ∀ r, s.store.Open now r → s.queues.OnDisk r → qs.Given r ∨ qs.OnDisk r) :
    Covered c modes { s with clock := now, queues := qs } where
  stored r hr hid := by
    rcases h.stored r (hr.mono hnow) hid with hg | hd | hp
    · exact .inl (hgiven r hr hg)
    · exact (hdisk r hr hd).imp_right .inl
    · exact .inr (.inr hp)
  seen r hr hid := hgiven r hr (h.seen r (hr.mono hnow) hid)
  handed r hr hid := hgiven r hr (h.handed r (hr.mono hnow) hid)
  sent r hr hid := (h.sent r (hr.mono hnow) hid).imp_left (hgiven r hr)

/-- Rows end, expire or get another key; the last only while they are handed over. -/
theorem restore (h : s.Covered c modes) (now : Time) {st : Store}
    (hopen : ∀ r, st.Open now r → s.store.Open s.clock r ∨
      ∃ r₀, s.store.Open s.clock r₀ ∧ r₀.id = r.id ∧ r.id ∈ s.hands.map (·.1.id)) :
    Covered c modes { s with clock := now, store := st } := by
  have hgiven : ∀ r, st.Open now r → s.store.Open s.clock r ∨ s.queues.Given r := by
    intro r hr
    rcases hopen r hr with hr | ⟨r₀, hr₀, hid, hh⟩
    · exact .inl hr
    · obtain ⟨q, hq, hreg, hmem⟩ := h.handed r₀ hr₀ (hid ▸ hh)
      exact .inr ⟨q, hq, hreg, hid ▸ hmem⟩
  constructor
  · intro r hr hid
    exact (hgiven r hr).elim (fun hr => h.stored r hr hid) .inl
  · intro r hr hid
    exact (hgiven r hr).elim (fun hr => h.seen r hr hid) id
  · intro r hr hid
    exact (hgiven r hr).elim (fun hr => h.handed r hr hid) id
  · intro r hr hid
    exact (hgiven r hr).elim (fun hr => h.sent r hr hid) .inl

end Covered

/-- The rows open under a key that were stored before recovery began. -/
def earlier (s : Recovery) (key : String) : List Row :=
  (s.store.pendingUnder key s.clock).filter fun r => r.id ∉ s.webhooks

theorem mem_earlier {s : Recovery} {key : String} {r : Row} :
    r ∈ s.earlier key ↔ s.store.Open s.clock r ∧ r.queueKey = key ∧ r.id ∉ s.webhooks := by
  simp only [earlier, List.mem_filter, Store.mem_pendingUnder, decide_eq_true_iff, Store.Open]
  tauto

theorem nodup_earlier_ids {s : Recovery} {key : String} :
    ((s.earlier key).map Row.id).Nodup :=
  s.store.ids_nodup.sublist ((List.filter_sublist.trans List.filter_sublist).map _)

def tally (s : Recovery) (key : String) : Nat := (s.earlier key).length

theorem tally_le {s t : Recovery} {key : String}
    (h : ∀ r ∈ t.earlier key, ∃ r₀ ∈ s.earlier key, r₀.id = r.id) : t.tally key ≤ s.tally key := by
  have hsub : (t.earlier key).map Row.id ⊆ (s.earlier key).map Row.id := by
    intro id hid
    obtain ⟨r, hr, rfl⟩ := List.mem_map.mp hid
    obtain ⟨r₀, hr₀, hsame⟩ := h r hr
    exact List.mem_map.mpr ⟨r₀, hr₀, hsame⟩
  simpa [tally] using (List.subperm_of_subset nodup_earlier_ids hsub).length_le

end Recovery

/-- No key has more earlier rows than were counted for it. -/
def Pass.Bounds (tally : String → Nat) : Pass → Prop
  | .first counts _ false => ∀ p ∈ counts, tally p.1 ≤ p.2
  | .second todo => ∀ p ∈ todo, tally p.1 ≤ p.2
  | .start | .first _ _ true | .done => True

def Task.Bounds : Task → (String → Nat) → Prop
  | .enqueue _ next, _ | .handoff _ _ next, _ => ∀ tally, next.Bounds tally
  | .firstPage key n, tally => tally key ≤ n
  | .idle, _ | .pageAll _ _, _ | .attach _ _, _ | .attachTo _ _ _, _ => True

theorem Pass.Bounds.mono {f g : String → Nat} {pass : Pass} (h : pass.Bounds f)
    (hle : ∀ key, g key ≤ f key) : pass.Bounds g := by
  match pass with
  | .first counts _ false => exact fun p hp => (hle p.1).trans (h p hp)
  | .second todo => exact fun p hp => (hle p.1).trans (h p hp)
  | .start | .first _ _ true | .done => trivial

theorem Task.Bounds.mono {f g : String → Nat} {task : Task} (h : task.Bounds f)
    (hle : ∀ key, g key ≤ f key) : task.Bounds g := by
  cases task with
  | firstPage key n => exact (hle key).trans h
  | enqueue | handoff => exact h
  | idle | pageAll | attach | attachTo => trivial

def Pass.late : Pass → Bool
  | .second _ | .done => true
  | .start | .first _ _ _ => false

def Task.paging : Task → Bool
  | .enqueue _ next | .handoff _ _ next => next.paging
  | .firstPage _ _ => true
  | .idle | .pageAll _ _ | .attach _ _ | .attachTo _ _ _ => false

namespace Recovery

/-- Webhook jobs sort after the earlier ones and are stored only under the key they route to; a job
given to a queue has its key, or will get it; and the counts recovery goes by are not too small. -/
structure Counted (c : RecoveryConfig) (modes : String → Bool) (s : Recovery) : Prop where
  order : ∀ r ∈ s.store.rows, ∀ w ∈ s.store.rows, r.pending = true → w.pending = true →
    r.id ∉ s.webhooks → w.id ∈ s.webhooks → r.pos < w.pos
  past : ∀ r ∈ s.store.rows, r.pending = true → r.id ∉ s.webhooks →
    ({} : PageCursor).covers r.job = false
  keys : ∀ r ∈ s.store.rows, r.pending = true → r.id ∈ s.webhooks → '|' ∈ r.queueKey.toList →
    r.Routes c.toRouting modes
  settled : ∀ q ∈ s.queues.rows, ∀ r, s.store.Open s.clock r → r.id ∈ q.given →
    r.Routes c.toRouting modes ∨ r.id ∈ s.hands.map (·.1.id)
  second : s.pass.late = true ∨ s.task.paging = true → ∀ r, s.store.Open s.clock r →
    r.id ∉ s.webhooks → r.Routes c.toRouting modes
  pass : s.pass.Bounds s.tally
  task : s.task.Bounds s.tally

namespace Counted

variable {c : RecoveryConfig} {modes : String → Bool} {s t : Recovery} {now : Time}

theorem tally_advance (s : Recovery) (hnow : s.clock ≤ now) (key : String) :
    { s with clock := now }.tally key ≤ s.tally key := by
  refine tally_le fun r hr => ⟨r, ?_, rfl⟩
  obtain ⟨hopen, hkey, hid⟩ := mem_earlier.mp hr
  exact mem_earlier.mpr ⟨hopen.mono hnow, hkey, hid⟩

/-- Recovery and the webhooks go on, with bounds for what recovery goes on with. -/
theorem control (h : s.Counted c modes) (hnow : s.clock ≤ now) (pass : Pass) (task : Task)
    (seen : List String) (sending : List Job) (handing : List (Job × Nat))
    (hhands : ∀ r, s.store.Open now r → r.id ∈ s.hands.map (·.1.id) →
      r.Routes c.toRouting modes ∨ r.id ∈ (task.hands ++ handing).map (·.1.id))
    (hlate : pass.late = true ∨ task.paging = true → ∀ r, s.store.Open now r →
      r.id ∉ s.webhooks → r.Routes c.toRouting modes)
    (hpass : pass.Bounds { s with clock := now }.tally)
    (htask : task.Bounds { s with clock := now }.tally) :
    Counted c modes { s with clock := now, pass, task, seen, sending, handing } where
  __ := h
  settled q hq r hr hid := (h.settled q hq r (hr.mono hnow) hid).elim .inl (hhands r hr)
  second := hlate
  pass := hpass
  task := htask

/-- Recovery goes on in the same pass with a task that needs no bound. -/
theorem proceed (h : s.Counted c modes) (hnow : s.clock ≤ now) (task : Task) (seen : List String)
    (sending : List Job) (handing : List (Job × Nat))
    (hhands : ∀ r, s.store.Open now r → r.id ∈ s.hands.map (·.1.id) →
      r.Routes c.toRouting modes ∨ r.id ∈ (task.hands ++ handing).map (·.1.id))
    (hpaging : task.paging = true → s.task.paging = true)
    (htask : task.Bounds { s with clock := now }.tally) :
    Counted c modes { s with clock := now, task, seen, sending, handing } :=
  h.control hnow s.pass task seen sending handing hhands
    (fun hl r hr => h.second (hl.imp_right hpaging) r (hr.mono hnow))
    (h.pass.mono (tally_advance s hnow)) htask

theorem requeue (h : s.Counted c modes) (hnow : s.clock ≤ now) {qs : Queues}
    (hset : ∀ q ∈ qs.rows, ∀ r, s.store.Open now r → r.id ∈ q.given →
      r.Routes c.toRouting modes ∨ r.id ∈ s.hands.map (·.1.id)) :
    Counted c modes { s with clock := now, queues := qs } where
  __ := h
  settled := hset
  second hl r hr := h.second hl r (hr.mono hnow)
  pass := h.pass.mono (tally_advance s hnow)
  task := h.task.mono (tally_advance s hnow)

/-- Rows end, expire or get the key their job routes to. -/
theorem restore (h : s.Counted c modes) (now : Time) {st : Store}
    (hst : ∀ r ∈ st.rows, r.pending = true → ∃ r₀ ∈ s.store.rows, r₀.pending = true ∧
      r₀.job = r.job ∧ (r₀ = r ∨ r.Routes c.toRouting modes))
    (hopen : ∀ r, st.Open now r → ∃ r₀, s.store.Open s.clock r₀ ∧ r₀.job = r.job ∧
      (r₀ = r ∨ r.Routes c.toRouting modes))
    (hpass : s.pass.Bounds { s with clock := now, store := st }.tally)
    (htask : s.task.Bounds { s with clock := now, store := st }.tally) :
    Counted c modes { s with clock := now, store := st } where
  order r hr w hw hpr hpw hidr hidw := by
    obtain ⟨r₀, hr₀, hpr₀, hjr, -⟩ := hst r hr hpr
    obtain ⟨w₀, hw₀, hpw₀, hjw, -⟩ := hst w hw hpw
    have hlt := h.order r₀ hr₀ w₀ hw₀ hpr₀ hpw₀
    simp only [Row.id, Row.pos, hjr, hjw] at hlt
    exact hlt hidr hidw
  past r hr hp hid := by
    obtain ⟨r₀, hr₀, hp₀, hj, -⟩ := hst r hr hp
    have hcov := h.past r₀ hr₀ hp₀
    simp only [Row.id, hj] at hcov
    exact hcov hid
  keys r hr hp hid hbar := by
    obtain ⟨r₀, hr₀, hp₀, -, rfl | hroutes⟩ := hst r hr hp
    · exact h.keys r₀ hr₀ hp₀ hid hbar
    · exact hroutes
  settled q hq r hr hid := by
    obtain ⟨r₀, hr₀, -, rfl | hroutes⟩ := hopen r hr
    · exact h.settled q hq r₀ hr₀ hid
    · exact .inl hroutes
  second hl r hr hid := by
    obtain ⟨r₀, hr₀, -, rfl | hroutes⟩ := hopen r hr
    · exact h.second hl r₀ hr₀ hid
    · exact hroutes
  pass := hpass
  task := htask

end Counted

section Reaching

variable {c : RecoveryConfig} {modes : String → Bool} {s : Recovery} {r : Row} {key : String}
  {now : Time}

/-- The key of an open row is pageable exactly if the row routes to it. -/
theorem pageable_iff_routes (hw : s.Wired c modes) (hr : s.store.Open now r)
    (hpast : ({} : PageCursor).covers r.job = false) (hbar : '|' ∈ r.queueKey.toList) :
    s.pageable c r.queueKey now = true ↔ r.Routes c.toRouting modes := by
  unfold pageable
  rw [if_neg (not_not.mpr hbar)]
  split
  next hnone =>
    -- a page of one row cannot be empty while this row is open
    have hnil := List.head?_eq_none_iff.mp hnone
    have hshort : (s.store.queuedPage r.queueKey {} 0 1 now).length < 1 := by simp [hnil]
    have hmem := Store.mem_queuedPage_of_short hshort hr.mem_pendingUnder hpast
    simp [hnil] at hmem
  next first hfirst =>
    obtain ⟨r₁, hr₁, -, rfl⟩ := Store.mem_queuedPage (List.mem_of_head? hfirst)
    obtain ⟨hmem, -, hkey, hp⟩ := Store.mem_pendingUnder.mp hr₁
    rw [decide_eq_true_iff, storeKeyFor, hw.mode, Routing.storeKeyFor_asQueued]
    constructor
    · exact (hw.keyed r hr.1 hr.2.1).routes
    · intro hroutes
      exact ((hw.keyed r₁ hmem hp).routes (hroutes.trans hkey.symm)).trans hkey

/-- What the first pass loads at once includes every open row of the key. -/
theorem loadAll_reaches (hr : s.store.Open now r)
    (hpast : ({} : PageCursor).covers r.job = false) : (s.loadAll r.queueKey now).Reaches r := by
  unfold loadAll
  split
  · refine .inl (List.mem_map.mpr ⟨r.job.asQueued, ?_, rfl⟩)
    exact List.mem_map_of_mem hr.mem_pendingUnder
  · exact ⟨rfl, hpast⟩

/-- A page and what follows it reach every open row past the cursor. -/
theorem page_reaches {after : PageCursor} (hr : s.store.Open now r)
    (hcov : after.covers r.job = false) :
    let page := s.store.queuedPage r.queueKey after 0 c.pageSize now
    (Task.enqueue page (if page.length < c.pageSize then .idle
      else .pageAll r.queueKey (Store.cursorAfter page after))).Reaches r := by
  intro page
  split
  next hshort =>
    have hmem := Store.mem_queuedPage_of_short hshort hr.mem_pendingUnder hcov
    exact .inl (Store.id_mem_of_asQueued_mem hmem)
  next =>
    rcases Store.mem_queuedPage_or_past hr.mem_pendingUnder hcov with hmem | hpast
    · exact .inl (Store.id_mem_of_asQueued_mem hmem)
    · exact .inr ⟨rfl, hpast⟩

/-- A full first page that leaves an earlier row out is smaller than the earlier rows are many:
every row on it sorts before the one left out, so no webhook job is among them. -/
theorem length_page_lt_tally (hc : s.Counted c modes) (hr : s.store.Open now r)
    (hid : r.id ∉ s.webhooks)
    (hout : r.job.asQueued ∉ s.store.queuedPage r.queueKey {} 0 c.pageSize now) :
    (s.store.queuedPage r.queueKey {} 0 c.pageSize now).length <
      { s with clock := now }.tally r.queueKey := by
  have hpast := hc.past r hr.1 hr.2.1 hid
  have hnodup : (r.id :: (s.store.queuedPage r.queueKey {} 0 c.pageSize now).map Job.id).Nodup := by
    refine List.nodup_cons.mpr ⟨fun hmem => hout ?_, Store.nodup_queuedPage_ids⟩
    exact Store.asQueued_mem_of_id_mem hr.1 hmem
  have hsub : r.id :: (s.store.queuedPage r.queueKey {} 0 c.pageSize now).map Job.id ⊆
      ({ s with clock := now }.earlier r.queueKey).map Row.id := by
    intro id hmem
    rcases List.mem_cons.mp hmem with rfl | hmem
    · exact List.mem_map_of_mem (mem_earlier.mpr ⟨hr, rfl, hid⟩)
    · obtain ⟨j, hj, rfl⟩ := List.mem_map.mp hmem
      obtain ⟨x, hx, -, rfl⟩ := Store.mem_queuedPage hj
      obtain ⟨hxmem, hlive, hkey, hp⟩ := Store.mem_pendingUnder.mp hx
      have hlt : x.pos < r.pos := Store.pos_lt_of_left_out hr.mem_pendingUnder hpast hout hj
      refine List.mem_map.mpr ⟨x, mem_earlier.mpr ⟨⟨hxmem, hp, hlive⟩, hkey, fun hwid => ?_⟩, rfl⟩
      exact lt_asymm hlt (hc.order r hr.1 x hxmem hr.2.1 hp hid hwid)
  simpa [tally, Nat.succ_le_iff] using (List.subperm_of_subset hnodup hsub).length_le

/-- The first page of the second pass and what follows it reach every earlier row of the key. -/
theorem firstPage_reaches (hc : s.Counted c modes) {n : Nat} (hnow : s.clock ≤ now)
    (hn : s.tally r.queueKey ≤ n) (hr : s.store.Open now r) (hid : r.id ∉ s.webhooks) :
    let page := s.store.queuedPage r.queueKey {} 0 c.pageSize now
    (Task.enqueue page (afterFirst c r.queueKey n page)).Reaches r := by
  intro page
  have hpast := hc.past r hr.1 hr.2.1 hid
  by_cases hmem : r.job.asQueued ∈ page
  · exact .inl (Store.id_mem_of_asQueued_mem hmem)
  -- the row is not on the page, so the page is full and more rows were counted than it has
  have hfull : ¬ page.length < c.pageSize := fun hshort =>
    hmem (Store.mem_queuedPage_of_short hshort hr.mem_pendingUnder hpast)
  have hlt : page.length < s.tally r.queueKey :=
    lt_of_lt_of_le (length_page_lt_tally hc hr hid hmem) (Counted.tally_advance s hnow _)
  have hcursor := (Store.mem_queuedPage_or_past hr.mem_pendingUnder hpast).resolve_left hmem
  right
  rw [afterFirst, if_neg (by omega)]
  split
  next hnone =>
    have hnil := List.getLast?_eq_none_iff.mp hnone
    exact absurd c.pageSize_pos (by simpa [hnil] using hfull)
  next last hlast =>
    rw [Store.cursorAfter, hlast] at hcursor
    exact ⟨rfl, hcursor⟩

end Reaching

end Recovery

namespace Queues

variable {qs qs' : Queues} {r : Row} {key id : String} {num n : Nat}

theorem held_of_reserve (h : qs.reserve key id num = some (qs', n)) :
    (qs.Given r → qs'.Given r) ∧ (qs.OnDisk r → qs'.OnDisk r) := by
  constructor
  · rintro ⟨q, hq, hreg, hmem⟩
    obtain ⟨q', hq', -, -, hreg', -, hsub⟩ := kept_of_reserve h hq
    exact ⟨q', hq', hreg'.trans hreg, hsub hmem⟩
  · rintro ⟨q, hq, hreg, src, hsrc, hkey⟩
    obtain ⟨q', hq', -, -, hreg', hsrc', -⟩ := kept_of_reserve h hq
    exact ⟨q', hq', hreg'.trans hreg, src, hsrc' ▸ hsrc, hkey⟩

theorem given_of_reserve (h : qs.reserve key id num = some (qs', n)) (hid : r.id = id) :
    qs'.Given r := by
  obtain ⟨q, hq, -, hreg, -, hmem⟩ := exists_of_reserve h
  exact ⟨q, hq, hreg, hid ▸ hmem⟩

theorem given_of_mem_reserve {q : Queue} (h : qs.reserve key id num = some (qs', n))
    (hq : q ∈ qs'.rows) (hmem : r.id ∈ q.given) : r.id = id ∨ ∃ q₀ ∈ qs.rows, r.id ∈ q₀.given := by
  rcases mem_of_reserve h hq with ⟨q₀, hq₀, -, -, hg | ⟨-, hg⟩⟩ | ⟨-, -, hg⟩ <;> rw [hg] at hmem
  · exact .inr ⟨q₀, hq₀, hmem⟩
  · exact (List.mem_cons.mp hmem).imp_right fun hmem => ⟨q₀, hq₀, hmem⟩
  · exact .inl (List.mem_singleton.mp hmem)

theorem held_of_attachSpill {src : Source} :
    (qs.Given r → (qs.attachSpill num src).Given r) ∧
      (qs.OnDisk r → (qs.attachSpill num src).OnDisk r) := by
  constructor
  · rintro ⟨q, hq, hreg, hmem⟩
    by_cases hn : q.num = num
    · exact ⟨_, Table.mem_update.mpr (.inr ⟨q, hq, hn, rfl⟩), hreg, hmem⟩
    · exact ⟨q, Table.mem_update.mpr (.inl ⟨hq, hn⟩), hreg, hmem⟩
  · rintro ⟨q, hq, hreg, x, hx, hkey⟩
    by_cases hn : q.num = num
    · exact ⟨_, Table.mem_update.mpr (.inr ⟨q, hq, hn, rfl⟩), hreg, x,
        List.mem_append_left _ hx, hkey⟩
    · exact ⟨q, Table.mem_update.mpr (.inl ⟨hq, hn⟩), hreg, x, hx, hkey⟩

/-- The rows past the cursor of a source attached to a registered queue are on disk. -/
theorem onDisk_of_attachSpill {q : Queue} {src : Source} (hq : q ∈ qs.rows) (hn : q.num = num)
    (hreg : q.registered = true) (hkey : r.queueKey = src.key)
    (hcov : src.after.covers r.job = false) : (qs.attachSpill num src).OnDisk r :=
  ⟨_, Table.mem_update.mpr (.inr ⟨q, hq, hn, rfl⟩), hreg, src, by simp, hkey.symm, hcov⟩

theorem held_of_retire (hidle : ∀ q ∈ qs.rows, q.num = num → r.id ∉ q.given ∧ q.sources = []) :
    (qs.Given r → (qs.retire num).Given r) ∧ (qs.OnDisk r → (qs.retire num).OnDisk r) := by
  constructor
  · rintro ⟨q, hq, hreg, hmem⟩
    have hn : q.num ≠ num := fun hn => (hidle q hq hn).1 hmem
    exact ⟨q, Table.mem_update.mpr (.inl ⟨hq, hn⟩), hreg, hmem⟩
  · rintro ⟨q, hq, hreg, x, hx, hkey⟩
    have hn : q.num ≠ num := fun hn => by simp [(hidle q hq hn).2] at hx
    exact ⟨q, Table.mem_update.mpr (.inl ⟨hq, hn⟩), hreg, x, hx, hkey⟩

/-- What a source loses by one page read, its queue was given. -/
theorem held_of_refill {st : Store} {src : Source} {size : Nat} {now : Time}
    {hf : ∀ _ : Queue, _} (hr : st.Open now r) :
    let qs' : Queues := qs.update num
      (fun q => q.refill src (st.queuedPage src.key src.after 0 size now) size) hf
    (qs.Given r → qs'.Given r) ∧ (qs.OnDisk r → qs'.Given r ∨ qs'.OnDisk r) := by
  intro qs'
  constructor
  · rintro ⟨q, hq, hreg, hmem⟩
    by_cases hn : q.num = num
    · exact ⟨_, Table.mem_update.mpr (.inr ⟨q, hq, hn, rfl⟩), hreg, List.mem_append_right _ hmem⟩
    · exact ⟨q, Table.mem_update.mpr (.inl ⟨hq, hn⟩), hreg, hmem⟩
  · rintro ⟨q, hq, hreg, x, hx, hkey, hcov⟩
    by_cases hn : q.num = num
    swap
    · exact .inr ⟨q, Table.mem_update.mpr (.inl ⟨hq, hn⟩), hreg, x, hx, hkey, hcov⟩
    have hq' : q.refill src (st.queuedPage src.key src.after 0 size now) size ∈ qs'.rows :=
      Table.mem_update.mpr (.inr ⟨q, hq, hn, rfl⟩)
    by_cases hxs : x = src
    swap
    · exact .inr ⟨_, hq', hreg, x, List.mem_filterMap.mpr ⟨x, hx, if_neg hxs⟩, hkey, hcov⟩
    subst hxs
    have hmem : r ∈ st.pendingUnder x.key now := hkey ▸ hr.mem_pendingUnder
    by_cases hpage : r.job.asQueued ∈ st.queuedPage x.key x.after 0 size now
    · exact .inl ⟨_, hq', hreg, List.mem_append_left _ (Store.id_mem_of_asQueued_mem hpage)⟩
    · have hpast := (Store.mem_queuedPage_or_past hmem hcov).resolve_left hpage
      have hfull : ¬ (st.queuedPage x.key x.after 0 size now).length < size := fun hshort =>
        hpage (Store.mem_queuedPage_of_short hshort hmem hcov)
      let next : Source :=
        { x with after := Store.cursorAfter (st.queuedPage x.key x.after 0 size now) x.after }
      refine .inr ⟨_, hq', hreg, next, List.mem_filterMap.mpr ⟨x, hx, ?_⟩, hkey, hpast⟩
      rw [if_pos rfl, Source.advance, if_neg hfull]

end Queues

end Aquifer
