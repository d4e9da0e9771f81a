import Aquifer.Dispatch.Tally

/-! No job is lost between a queue's hand-offs and the pages it reads from disk. -/
namespace Aquifer

namespace Tally

variable {e : Event} {l l' : Tally} {id key : String} {job : Job}

/-- A hand-off of the job is under way or waits in the channel. -/
def InHand (l : Tally) (id : String) : Prop := ∃ job ∈ l.reserved + l.handed, job.id = id

/-- The job is pending under the key of a source that has not come to it yet. -/
def OnDisk (l : Tally) (id : String) : Prop :=
  ∃ src ∈ l.sources, ∃ r ∈ l.store.rows, r.id = id ∧ r.pending = true ∧ r.queueKey = src.key ∧
    src.after.covers r.job = false

/-- The queue has the job still to run. -/
def Keeps (l : Tally) (id : String) : Prop := id ∈ l.held ∨ l.InHand id ∨ l.OnDisk id

def Finished (l : Tally) (id : String) : Prop := ∃ r ∈ l.store.rows, r.id = id ∧ r.pending = false

/-- The terminal row is of one of the queue's jobs: it has ended it, or it is under its key. -/
def Ended (key : String) (l : Tally) (r : Row) : Prop :=
  r.pending = false ∧ (r.id ∈ l.ended ∨ r.queueKey = key)

def Accounted (key : String) (l : Tally) (id : String) : Prop :=
  id ∈ l.held ∨ l.InHand id ∨ l.OnDisk id ∨ ∃ r ∈ l.store.rows, r.id = id ∧ l.Ended key r

instance (r : Row) (job : Job) : Decidable (r.Is job) := inferInstanceAs (Decidable (_ ∧ _))

instance (l : Tally) (id : String) : Decidable (l.InHand id) :=
  Multiset.decidableExistsMultiset

instance (l : Tally) (id : String) : Decidable (l.OnDisk id) :=
  inferInstanceAs (Decidable (∃ src ∈ l.sources, ∃ r ∈ l.store.rows, r.id = id ∧ r.pending = true ∧
    r.queueKey = src.key ∧ src.after.covers r.job = false))

instance (l : Tally) (id : String) : Decidable (l.Finished id) :=
  inferInstanceAs (Decidable (∃ r ∈ l.store.rows, r.id = id ∧ r.pending = false))

instance (l : Tally) (id : String) : Decidable (l.Keeps id) := inferInstanceAs (Decidable (_ ∨ _))

instance (key : String) (l : Tally) (r : Row) : Decidable (l.Ended key r) :=
  inferInstanceAs (Decidable (_ ∧ _))

/-- Every hand-off and every held job has its row, under the queue's key once that is written, and
a closed job's row is terminal. -/
structure Backed (key : String) (l : Tally) : Prop where
  reserved : ∀ job ∈ l.reserved, ∃ r ∈ l.store.rows, r.Is job
  handed : ∀ job ∈ l.handed, ∃ r ∈ l.store.rows, r.Is job ∧ r.queueKey = key
  held : ∀ id ∈ l.held, ∃ r ∈ l.store.rows, r.id = id
  closed : ∀ id ∈ l.closed, ∀ r ∈ l.store.rows, r.id = id → r.pending = false
  closed_sub : l.closed ⊆ l.held

/-- A status is written to a row, terminal if its job is closed. -/
theorem Backed.update (h : Backed key l) (f : Row → Row)
    (hf : ∀ r, (f r).id = r.id ∧ (f r).hash = r.hash) (hst : l'.store = l.store.update id f hf)
    (hjob : ∀ r, (f r).job.createdAt = r.job.createdAt) (hkey : ∀ r, (f r).queueKey = r.queueKey)
    (hr : l'.reserved = l.reserved) (hh : l'.handed = l.handed) (hheld : l'.held = l.held)
    (hclosed : ∀ i ∈ l'.closed, i ≠ id → i ∈ l.closed)
    (hnew : id ∈ l'.closed → ∀ r, (f r).pending = false) (hsub : l'.closed ⊆ l'.held) :
    Backed key l' := by
  have his {r : Row} {job : Job} (hr : r.Is job) : (f r).Is job :=
    ⟨(hf r).1.trans hr.1, (hjob r).trans hr.2⟩
  refine ⟨?_, ?_, ?_, ?_, hsub⟩
  · rw [hst, hr]
    intro job hj
    exact Table.exists_update (fun r hr => his hr) (h.reserved job hj)
  · rw [hst, hh]
    intro job hj
    exact Table.exists_update (fun r hr => ⟨his hr.1, (hkey r).trans hr.2⟩) (h.handed job hj)
  · rw [hst, hheld]
    intro i hi
    exact Table.exists_update (fun r hr => (hf r).1.trans hr) (h.held i hi)
  · rw [hst]
    intro i hi r hr hri
    rcases Table.mem_update.mp hr with ⟨hr, hne⟩ | ⟨r', -, hid, rfl⟩
    · exact h.closed i (hclosed i hi (hri ▸ hne)) r hr hri
    · have heq : i = id := hri.symm.trans ((hf r').1.trans hid)
      exact hnew (heq ▸ hi) r'

theorem Backed.close {status : Status} {now : Time} (h : Backed key l) (hheld : id ∈ l.held)
    (hst : status.pending = false) : Backed key (l.close id status now) := by
  refine h.update (fun r => r.withStatus status now) (fun _ => ⟨rfl, rfl⟩) rfl (fun _ => rfl)
    (fun _ => rfl) rfl rfl rfl ?_ (fun _ _ => hst) ?_
  · intro i hi hne
    exact Finset.mem_of_mem_insert_of_ne hi hne
  · exact Finset.insert_subset hheld h.closed_sub

theorem Backed.retry {attempts : Int} (h : Backed key l) (hopen : id ∉ l.closed) :
    Backed key (l.retry id attempts) :=
  h.update (fun r => r.withRetry attempts) (fun _ => ⟨rfl, rfl⟩) rfl (fun _ => rfl) (fun _ => rfl)
    rfl rfl rfl (fun _ hi _ => hi) (fun hi => absurd hi hopen) h.closed_sub

theorem Backed.settle (h : Backed key l) : Backed key (l.settle id) := by
  refine ⟨h.reserved, h.handed, ?_, ?_, Finset.erase_subset_erase id h.closed_sub⟩
  · intro i hi
    exact h.held i (Finset.mem_of_mem_erase hi)
  · intro i hi
    exact h.closed i (Finset.mem_of_mem_erase hi)

theorem Backed.sweep {i : Nat} {src : SpillSource} {now : Time} (h : Backed key l) :
    Backed key (l.sweep i src now job) :=
  h.update (fun r => r.withStatus .failed now) (fun _ => ⟨rfl, rfl⟩) rfl (fun _ => rfl)
    (fun _ => rfl) rfl rfl rfl (fun _ hi _ => hi) (fun _ _ => rfl) h.closed_sub

theorem Backed.hold (h : Backed key l) (hrow : ∃ r ∈ l.store.rows, r.id = id) :
    Backed key { l with held := insert id l.held } := by
  refine { h with held := ?_, closed_sub := h.closed_sub.trans (Finset.subset_insert _ _) }
  intro i hi
  rcases Finset.mem_insert.mp hi with rfl | hi
  · exact hrow
  · exact h.held i hi

theorem Backed.turn (ht : Turn e l l') (h : Backed key l) : Backed key l' := by
  cases ht with
  | close _ hheld hst => exact h.close hheld hst
  | retry _ hopen => exact h.retry hopen
  | settle => exact h.settle
  | @load _ _ _ src rest r hs hr ha hnext =>
    obtain ⟨h₁, h₂, h₃, h₄, h₅⟩ := h.hold ⟨r, (Store.mem_pendingUnder.mp hr).1, rfl⟩
    exact ⟨h₁, h₂, h₃, h₄, h₅⟩
  | finish => exact { h with }
  | sweep => exact h.sweep

/-- Every pending row under the key of a source is still unexpired when a page is read. -/
def Visible : Event → Tally → Prop
  | .refillPage _ clock, l => ∀ src ∈ l.sources, ∀ r ∈ l.store.rows, r.queueKey = src.key →
      r.pending = true → r.live clock = true
  | _, _ => True

/-- Sources move on but none goes away, and the job's row is not touched. -/
theorem Accounted.mono (h : Accounted key l id) (hheld : id ∈ l.held → id ∈ l'.held)
    (hhand : l.InHand id → Accounted key l' id)
    (hsrc : ∀ src ∈ l.sources, ∃ src' ∈ l'.sources, src'.key = src.key ∧ src'.after = src.after)
    (hended : l.ended ⊆ l'.ended) (hrow : ∀ r ∈ l.store.rows, r.id = id → r ∈ l'.store.rows) :
    Accounted key l' id := by
  rcases h with h | h | ⟨src, hs, r, hr, hid, hp, hk, ha⟩ | ⟨r, hr, hid, hp, hown⟩
  · exact .inl (hheld h)
  · exact hhand h
  · obtain ⟨src', hs', hk', ha'⟩ := hsrc src hs
    refine .inr (.inr (.inl ⟨src', hs', r, hrow r hr hid, hid, hp, hk.trans hk'.symm, ?_⟩))
    rw [ha', ha]
  · exact .inr (.inr (.inr ⟨r, hrow r hr hid, hid, hp, hown.imp_left fun h => hended h⟩))

theorem exists_mem_set_spend {i : Nat} {src : SpillSource} {srcs : List SpillSource}
    (hs : srcs[i]? = some src) (job : Job) :
    ∀ s ∈ srcs, ∃ s' ∈ srcs.set i (src.spend job), s' = s ∨ s' = s.spend job := by
  intro s hmem
  obtain ⟨j, hj⟩ := List.mem_iff_getElem?.mp hmem
  by_cases hij : i = j
  · subst hij
    rw [hs] at hj
    cases hj
    exact ⟨src.spend job, List.mem_set (List.getElem?_eq_some_iff.mp hs).1 _, .inr rfl⟩
  · refine ⟨s, List.mem_iff_getElem?.mpr ⟨j, ?_⟩, .inl rfl⟩
    rw [List.getElem?_set_ne hij, hj]

theorem Accounted.turn (ht : Turn e l l') (hb : Backed key l) (hv : Visible e l)
    (h : Accounted key l id) : Accounted key l' id := by
  cases ht with
  | @close _ _ i status now _ hheld hst =>
    by_cases hi : id = i
    · exact .inl (hi ▸ hheld)
    · refine h.mono (fun h => h) (fun h => .inr (.inl h)) (fun s hs => ⟨s, hs, rfl, rfl⟩)
        subset_rfl fun r hr hid => ?_
      exact Store.mem_updateStatus.mpr (.inl ⟨hr, fun he => hi (hid.symm.trans he)⟩)
  | @retry _ _ _ i attempts hheld hopen =>
    by_cases hi : id = i
    · exact .inl (hi ▸ hheld)
    · refine h.mono (fun h => h) (fun h => .inr (.inl h)) (fun s hs => ⟨s, hs, rfl, rfl⟩)
        subset_rfl fun r hr hid => ?_
      exact Store.mem_recordRetry.mpr (.inl ⟨hr, fun he => hi (hid.symm.trans he)⟩)
  | @settle _ _ i _ hheld hclosed =>
    by_cases hi : id = i
    · subst hi
      obtain ⟨r, hr, hid⟩ := hb.held id hheld
      exact .inr (.inr (.inr ⟨r, hr, hid, hb.closed id hclosed r hr hid,
        .inl (hid ▸ Finset.mem_insert_self _ _)⟩))
    · exact h.mono (fun h => Finset.mem_erase.mpr ⟨hi, h⟩) (fun h => .inr (.inl h))
        (fun s hs => ⟨s, hs, rfl, rfl⟩) (Finset.subset_insert _ _) fun r hr _ => hr
  | @load _ now clock src rest r hs hr ha hnext =>
    rcases h with h | h | ⟨src', hs', r', hr', hid, hp, hk, ha'⟩ | h
    · exact .inl (Finset.mem_insert_of_mem h)
    · exact .inr (.inl h)
    · have hlive := hv src' hs' r' hr' hk hp
      rw [hs] at hs'
      rcases List.mem_cons.mp hs' with rfl | hs'
      · have hmem : r' ∈ l.store.pendingUnder src'.key clock :=
          Store.mem_pendingUnder.mpr ⟨hr', hlive, hk, hp⟩
        rcases hnext r' hmem ha' with rfl | hun
        · exact .inl (Finset.mem_insert.mpr (.inl hid.symm))
        · exact .inr (.inr (.inl ⟨_, List.mem_cons_self, r', hr', hid, hp, hk, hun⟩))
      · exact .inr (.inr (.inl ⟨src', List.mem_cons_of_mem _ hs', r', hr', hid, hp, hk, ha'⟩))
    · exact .inr (.inr (.inr h))
  | @finish _ now clock src rest hs hall =>
    rcases h with h | h | ⟨src', hs', r', hr', hid, hp, hk, ha'⟩ | h
    · exact .inl h
    · exact .inr (.inl h)
    · have hlive := hv src' hs' r' hr' hk hp
      rw [hs] at hs'
      rcases List.mem_cons.mp hs' with rfl | hs'
      · rw [hall r' (Store.mem_pendingUnder.mpr ⟨hr', hlive, hk, hp⟩)] at ha'
        cases ha'
      · exact .inr (.inr (.inl ⟨src', hs', r', hr', hid, hp, hk, ha'⟩))
    · exact .inr (.inr (.inr h))
  | @sweep _ clock now i src r hs hr hk hp ha hheld =>
    by_cases hi : id = r.id
    · subst hi
      exact .inr (.inr (.inr ⟨r.withStatus .failed now,
        Store.mem_updateStatus.mpr (.inr ⟨r, hr, rfl, rfl⟩), rfl, rfl,
        .inl (Finset.mem_insert_self _ _)⟩))
    · refine h.mono (fun h => h) (fun h => .inr (.inl h)) (fun s hsm => ?_)
        (Finset.subset_insert _ _) fun r' hr' hid => ?_
      · obtain ⟨s', hs', rfl | rfl⟩ := exists_mem_set_spend hs r.job.asQueued s hsm
        · exact ⟨s', hs', rfl, rfl⟩
        · exact ⟨_, hs', rfl, rfl⟩
      · exact Store.mem_updateStatus.mpr (.inl ⟨hr', fun he => hi (hid.symm.trans he)⟩)

/-- A page load leaves the rows it has not come to visible. -/
theorem Visible.turn (ht : Turn e l l') (hv : Visible e l) : Visible e l' := by
  cases e with
  | refillPage now clock =>
    cases ht with
    | close he | settle he => cases he
    | @load _ _ _ src rest r₀ hs hr₀ ha hnext =>
      intro src' hsrc'
      rcases List.mem_cons.mp hsrc' with rfl | hsrc'
      · exact hv src (hs ▸ List.mem_cons_self)
      · exact hv src' (hs ▸ List.mem_cons_of_mem _ hsrc')
    | finish hs =>
      intro src hsrc
      exact hv src (hs ▸ List.mem_cons_of_mem _ hsrc)
  | _ => trivial

/-! ### Hand-offs, sources and the writes of others -/

theorem Backed.reserve (h : Backed key l) (hrow : ∃ r ∈ l.store.rows, r.Is job) :
    Backed key (l.reserve job) := by
  refine { h with reserved := ?_ }
  intro j hj
  rcases Multiset.mem_cons.mp hj with rfl | hj
  · exact hrow
  · exact h.reserved j hj

theorem Backed.setKey (h : Backed key l) (hj : job ∈ l.reserved) :
    Backed key (l.setKey key job) := by
  refine ⟨?_, ?_, ?_, ?_, h.closed_sub⟩
  · intro j hjm
    exact Store.exists_setQueueKey (fun r hr => hr) (h.reserved j (Multiset.mem_of_mem_erase hjm))
  · intro j hjm
    rcases Multiset.mem_cons.mp hjm with rfl | hjm
    · obtain ⟨r, hr, his⟩ := h.reserved j hj
      exact ⟨{ r with queueKey := key }, Store.mem_setQueueKey.mpr (.inr ⟨r, hr, his.1, rfl⟩),
        his, rfl⟩
    · exact Store.exists_setQueueKey (fun r hr => ⟨hr.1, rfl⟩) (h.handed j hjm)
  · intro i hi
    exact Store.exists_setQueueKey (fun r hr => hr) (h.held i hi)
  · intro i hi r hr hri
    rcases Store.mem_setQueueKey.mp hr with ⟨hr, -⟩ | ⟨r', hr', -, rfl⟩
    · exact h.closed i hi r hr hri
    · exact h.closed i hi r' hr' hri

theorem Backed.attach {src : SpillSource} (h : Backed key l) : Backed key (l.attach src) :=
  { h with }

theorem Backed.drop (h : Backed key l) : Backed key (l.drop job) :=
  { h with handed := fun j hj => h.handed j (Multiset.mem_of_mem_erase hj) }

theorem Backed.accept (h : Backed key l) (hj : job ∈ l.handed) : Backed key (l.accept job) := by
  obtain ⟨r, hr, his, -⟩ := h.handed job hj
  obtain ⟨h₁, h₂, h₃, h₄, h₅⟩ := h.drop.hold ⟨r, hr, his.1⟩
  exact ⟨h₁, h₂, h₃, h₄, h₅⟩

/-- Somebody else's write leaves the rows of the queue's jobs alone. -/
theorem Backed.external {store : Store} (h : Backed key l)
    (hrow : ∀ r ∈ l.store.rows, l.Keeps r.id → r ∈ store.rows) : Backed key (l.external store) := by
  have hand {j : Job} (hj : j ∈ l.reserved + l.handed) {r : Row} (hr : r ∈ l.store.rows)
      (his : r.Is j) : r ∈ store.rows := hrow r hr (.inr (.inl ⟨j, hj, his.1.symm⟩))
  refine ⟨?_, ?_, ?_, ?_, h.closed_sub⟩
  · intro j hj
    obtain ⟨r, hr, his⟩ := h.reserved j hj
    exact ⟨r, hand (Multiset.mem_add.mpr (.inl hj)) hr his, his⟩
  · intro j hj
    obtain ⟨r, hr, his, hk⟩ := h.handed j hj
    exact ⟨r, hand (Multiset.mem_add.mpr (.inr hj)) hr his, his, hk⟩
  · intro i hi
    obtain ⟨r, hr, rfl⟩ := h.held i hi
    exact ⟨r, hrow r hr (.inl hi), rfl⟩
  · intro i hi r' hr' hri
    obtain ⟨r, hr, rfl⟩ := h.held i (h.closed_sub hi)
    have heq : r = r' := Table.eq_of_id (hrow r hr (.inl (h.closed_sub hi))) hr' hri.symm
    exact heq ▸ h.closed r.id hi r hr rfl

theorem Accounted.external {store : Store} (h : Accounted key l id)
    (hkept : ∀ r ∈ l.store.rows, l.Keeps r.id → r ∈ store.rows)
    (hended : ∀ r ∈ l.store.rows, l.Ended key r → r ∈ store.rows) :
    Accounted key (l.external store) id := by
  rcases h with h | h | ⟨src, hs, r, hr, hid, hrest⟩ | ⟨r, hr, hid, hend⟩
  · exact .inl h
  · exact .inr (.inl h)
  · have hdisk : l.OnDisk r.id := ⟨src, hs, r, hr, rfl, hrest⟩
    exact .inr (.inr (.inl ⟨src, hs, r, hkept r hr (.inr (.inr hdisk)), hid, hrest⟩))
  · exact .inr (.inr (.inr ⟨r, hended r hr hend, hid, hend⟩))

theorem Accounted.setKey (h : Accounted key l id) : Accounted key (l.setKey key job) id := by
  by_cases hi : id = job.id
  · exact .inr (.inl ⟨job, Multiset.mem_add.mpr (.inr (Multiset.mem_cons_self _ _)), hi.symm⟩)
  · refine h.mono (fun h => h) ?_ (fun s hs => ⟨s, hs, rfl, rfl⟩) subset_rfl ?_
    · rintro ⟨j, hjm, hid⟩
      refine .inr (.inl ⟨j, ?_, hid⟩)
      rcases Multiset.mem_add.mp hjm with hjm | hjm
      · have hne : j ≠ job := fun he => hi (hid ▸ congrArg Job.id he)
        exact Multiset.mem_add.mpr (.inl ((Multiset.mem_erase_of_ne hne).mpr hjm))
      · exact Multiset.mem_add.mpr (.inr (Multiset.mem_cons_of_mem hjm))
    · intro r hr hid
      exact Store.mem_setQueueKey.mpr (.inl ⟨hr, fun he => hi (hid.symm.trans he)⟩)

theorem InHand.drop (h : l.InHand id) (hi : id ≠ job.id) : (l.drop job).InHand id := by
  obtain ⟨j, hj, hid⟩ := h
  refine ⟨j, ?_, hid⟩
  have hne : j ≠ job := fun he => hi (hid ▸ congrArg Job.id he)
  rcases Multiset.mem_add.mp hj with hj | hj
  · exact Multiset.mem_add.mpr (.inl hj)
  · exact Multiset.mem_add.mpr (.inr ((Multiset.mem_erase_of_ne hne).mpr hj))

/-- A hand-off leaves the channel, and its own job stays accounted for. -/
theorem Accounted.drop (h : Accounted key l id) (hjob : Accounted key (l.drop job) job.id) :
    Accounted key (l.drop job) id := by
  by_cases hi : id = job.id
  · exact hi ▸ hjob
  · exact h.mono (fun h => h) (fun hin => .inr (.inl (hin.drop hi)))
      (fun s hs => ⟨s, hs, rfl, rfl⟩) subset_rfl fun r hr _ => hr

theorem Accounted.accept (h : Accounted key l id) : Accounted key (l.accept job) id := by
  by_cases hi : id = job.id
  · exact .inl (Finset.mem_insert.mpr (.inl hi))
  · exact h.mono Finset.mem_insert_of_mem (fun hin => .inr (.inl (hin.drop hi)))
      (fun s hs => ⟨s, hs, rfl, rfl⟩) subset_rfl fun r hr _ => hr

end Tally

namespace AccountQueue

variable {c : QueueConfig} {q t : AccountQueue} {e : Event} {id : String} {job : Job} {now : Time}

/-- The queue's memory is in order, its sweep is where it should be and its jobs have their rows. -/
structure Tracked (c : QueueConfig) (q : AccountQueue) : Prop where
  orderly : Orderly q
  ahead : SweepAhead q
  backed : q.tally.Backed c.storeKey

theorem tracked_new (store : Store) : Tracked c (new c store) := by
  refine ⟨orderly_new store, sweepAhead_of_none rfl, ?_⟩
  constructor <;> simp [tally, new, closedIds, closedJobs]

/-- What the queue's surroundings owe it: a job is stored before its hand-off starts, others leave
the rows of the jobs it has to run alone, and nothing panics or stops it. -/
def sound (c : QueueConfig) (q : AccountQueue) : Event → Bool
  | .reserve job => decide (∃ r ∈ q.store.rows, r.Is job)
  | .external op =>
    decide (∀ r ∈ q.store.rows, q.tally.Keeps r.id → r ∈ (op.apply c.env q.store).rows)
  | e => e.calm

theorem calm_of_sound (h : q.sound c e = true) : e.calm = true := by
  cases e <;> first | rfl | exact h

theorem mem_handed_of_cmds {rest : List Job} (hq : q.cmds = job :: rest) :
    job ∈ q.tally.handed := by
  refine Multiset.mem_coe.mpr (List.mem_append_right _ ?_)
  rw [hq]
  exact List.mem_cons_self

theorem tracked_step (h : Tracked c q) (hok : q.sound c e = true) (hstep : q.step c e = some t) :
    Tracked c t := by
  refine ⟨orderly_step h.orderly (calm_of_sound hok) hstep, sweepAhead_step h.ahead hstep, ?_⟩
  by_cases hin : e.inner = true
  · exact (step_turns h.orderly h.ahead hin hstep).keep h.backed fun ht hb => hb.turn ht
  have hout := outer_of_step hin hstep
  generalize t.tally = l at hout ⊢
  cases hout with
  | reserve => exact h.backed.reserve (of_decide_eq_true hok)
  | setKey hj => exact h.backed.setKey hj
  | attach => exact h.backed.attach
  | external => exact h.backed.external (of_decide_eq_true hok)
  | accept hq => exact h.backed.accept (mem_handed_of_cmds hq)
  | drop => exact h.backed.drop
  | panic | stop => exact absurd (calm_of_sound hok) (by simp [Event.calm])

/-- Paging needs three things more: no pending row of a source expires before its page is read, a
hand-off taken soon after a page load does not find its row already in flight, and others leave the
terminal rows of the queue's jobs alone. -/
def pageable (c : QueueConfig) (q : AccountQueue) : Event → Bool
  | .refillPage _ clock => decide (∀ src ∈ q.sources, ∀ r ∈ q.store.rows, r.queueKey = src.key →
      r.pending = true → r.live clock = true)
  | .recvCmd now _ => decide (∀ job ∈ q.cmds.head?, now < q.pagedOwnUntil →
      ∀ r ∈ q.store.rows, r.id = job.id → r.job.status ≠ .inFlight)
  | .external op => q.sound c (.external op) && decide (∀ r ∈ q.store.rows,
      q.tally.Ended c.storeKey r → r ∈ (op.apply c.env q.store).rows)
  | e => q.sound c e

theorem sound_of_pageable (h : q.pageable c e = true) : q.sound c e = true := by
  cases e <;> first | exact h | rfl | exact (Bool.and_eq_true_iff.mp h).1

theorem visible_of_pageable (h : q.pageable c e = true) : q.tally.Visible e := by
  cases e with
  | refillPage now clock =>
    rw [pageable, decide_eq_true_iff] at h
    exact h
  | _ => trivial

/-- Why the loop turns a hand-off away: one of the three tests of `acceptHandoff`. -/
theorem refused_cases {clock : Time} (h : q.acceptHandoff c job now clock = false) :
    job.id ∈ q.present ∨
      (∃ src ∈ q.spills, src.key = c.storeKey ∧ src.after.covers job = false) ∨
      now < q.pagedOwnUntil ∧ ∃ r ∈ q.store.rows, r.id = job.id ∧ r.job.status ≠ .queued := by
  unfold acceptHandoff at h
  split at h
  · next hp => exact .inl hp
  split at h
  · next hown =>
    rw [ownSpill, Option.any_eq_true] at hown
    obtain ⟨after, hafter, hcov⟩ := hown
    obtain ⟨src, hsrc, rfl⟩ := Option.map_eq_some_iff.mp hafter
    have hk := List.find?_some hsrc
    rw [decide_eq_true_iff] at hk
    exact .inr (.inl ⟨src, List.mem_of_find?_eq_some hsrc, hk, by simpa using hcov⟩)
  split at h
  · next hwin =>
    refine .inr (.inr ⟨hwin, ?_⟩)
    cases hget : q.store.getJob job.id clock with
    | none =>
      rw [hget] at h
      cases h
    | some stored =>
      rw [hget, Option.all_some, decide_eq_false_iff_not] at h
      obtain ⟨r, hfind, -, rfl⟩ := Store.getJob_eq_some_iff.mp hget
      obtain ⟨hr, hid⟩ := Table.find_eq_some_iff.mp hfind
      exact ⟨r, hr, hid, h⟩
  · cases h

theorem pending_of_status {r : Row} (hq : r.job.status ≠ .queued) (hf : r.job.status ≠ .inFlight) :
    r.pending = false := by
  rw [Row.pending]
  cases hs : r.job.status with
  | queued => exact absurd hs hq
  | inFlight => exact absurd hs hf
  | completed | failed => rfl

/-- A hand-off the loop turns away is in memory, its row is terminal, or a source of the queue still
comes to the row. -/
theorem row_of_refused {rest : List Job} {clock : Time} (h : Tracked c q)
    (hq : q.cmds = job :: rest)
    (hfly : now < q.pagedOwnUntil → ∀ r ∈ q.store.rows, r.id = job.id → r.job.status ≠ .inFlight)
    (href : q.acceptHandoff c job now clock = false) :
    ∃ r ∈ q.store.rows, r.Is job ∧ r.queueKey = c.storeKey ∧
      (job.id ∈ q.present ∨ r.pending = false ∨ r.pending = true ∧
        ∃ src ∈ q.spills, src.key = c.storeKey ∧ src.after.covers job = false) := by
  obtain ⟨r, hr, his, hkey⟩ := h.backed.handed job (mem_handed_of_cmds hq)
  refine ⟨r, hr, his, hkey, ?_⟩
  rcases refused_cases href with hp | hsrc | ⟨hwin, r', hr', hid, hst⟩
  · exact .inl hp
  · cases hp : r.pending with
    | true => exact .inr (.inr ⟨rfl, hsrc⟩)
    | false => exact .inr (.inl rfl)
  · obtain rfl : r = r' := Table.eq_of_id hr hr' (his.1.trans hid.symm)
    exact .inr (.inl (pending_of_status hst (hfly hwin r hr hid)))

theorem accounted_step (h : Tracked c q) (hok : q.pageable c e = true)
    (ha : q.tally.Accounted c.storeKey id) (hstep : q.step c e = some t) :
    t.tally.Accounted c.storeKey id := by
  by_cases hin : e.inner = true
  · -- Page loads are where the rows have to be visible, at each of their turns.
    let P (l : Tally) : Prop := l.Backed c.storeKey ∧ l.Visible e ∧ l.Accounted c.storeKey id
    have hP : P t.tally := (step_turns h.orderly h.ahead hin hstep).keep (P := P)
      ⟨h.backed, visible_of_pageable hok, ha⟩
      fun ht ⟨hb, hv, hacc⟩ => ⟨hb.turn ht, hv.turn ht, hacc.turn ht hb hv⟩
    exact hP.2.2
  have hout := outer_of_step hin hstep
  generalize t.tally = l at hout ⊢
  cases hout with
  | reserve =>
    refine ha.mono (fun h => h) ?_ (fun s hs => ⟨s, hs, rfl, rfl⟩) subset_rfl fun r hr _ => hr
    rintro ⟨j, hj, hid⟩
    refine .inr (.inl ⟨j, ?_, hid⟩)
    simp only [Tally.reserve, Multiset.mem_add, Multiset.mem_cons] at hj ⊢
    tauto
  | setKey => exact ha.setKey
  | attach =>
    exact ha.mono (fun h => h) (fun h => .inr (.inl h))
      (fun s hs => ⟨s, List.mem_append_left _ hs, rfl, rfl⟩) subset_rfl fun r hr _ => hr
  | external =>
    obtain ⟨hkept, hended⟩ := Bool.and_eq_true_iff.mp hok
    refine ha.external (of_decide_eq_true hkept) (of_decide_eq_true hended)
  | accept => exact ha.accept
  | drop hq href =>
    obtain ⟨r, hr, his, hkey, hp | hp | ⟨hp, src, hsrc, hk, hcov⟩⟩ :=
      row_of_refused h hq (of_decide_eq_true hok _ (by rw [hq]; rfl)) href
    · exact ha.drop (.inl hp)
    · exact ha.drop (.inr (.inr (.inr ⟨r, hr, his.1, hp, .inr hkey⟩)))
    · exact ha.drop (.inr (.inr (.inl ⟨src, List.mem_append_left _ hsrc, r, hr, his.1, hp,
        hkey.trans hk.symm, (his.covers _).trans hcov⟩)))
  | panic | stop => exact absurd (calm_of_sound (sound_of_pageable hok)) (by simp [Event.calm])

/-- A page read from the cursor of a remaining source returns the job, at every clock reading at
which its row is unexpired. -/
def StillReturned (q : AccountQueue) (id : String) : Prop :=
  ∃ src ∈ q.sources, ∃ r ∈ q.store.rows, r.id = id ∧ r.pending = true ∧ ∀ clock,
    r.live clock = true →
      r.job.asQueued ∈ q.store.queuedPage src.key src.after 0 (q.store.rows.length + 1) clock

theorem stillReturned_of_onDisk (h : q.tally.OnDisk id) : q.StillReturned id := by
  obtain ⟨src, hs, r, hr, hid, hp, hk, ha⟩ := h
  refine ⟨src, hs, r, hr, hid, hp, fun clock hlive => ?_⟩
  refine Store.mem_queuedPage_of_short (Nat.lt_succ_of_le Store.length_queuedPage_le) ?_ ha
  exact Store.mem_pendingUnder.mpr ⟨hr, hlive, hk, hp⟩

theorem heldIds_nodup (h : Orderly q) : q.heldIds.Nodup := by
  rw [List.nodup_iff_count_le_one]
  intro id
  rw [(h.books id).once]
  split <;> omega

/-- Paging neither loses nor duplicates a job. No id is held twice, and a job that was ever handed
to the queue or on disk under one of its sources stays held, on its way in, on disk past a source's
cursor, or terminal. -/
theorem paging_keeps_jobs (c : QueueConfig) (store : Store) (es es' : List Event)
    (s t : AccountQueue) (hs : Trace.exec (step c) (new c store) es = some s)
    (ht : Trace.exec (step c) s es' = some t)
    (hok : Trace.Along (step c) (fun q e => q.pageable c e = true) (new c store) es)
    (hok' : Trace.Along (step c) (fun q e => q.pageable c e = true) s es') :
    t.heldIds.Nodup ∧ ∀ id, s.tally.InHand id ∨ s.tally.OnDisk id →
      id ∈ t.heldIds ∨ t.tally.InHand id ∨ t.StillReturned id ∨ t.tally.Finished id := by
  have hkeep {u v : AccountQueue} {e : Event} (h : Tracked c u) (hok : u.pageable c e = true)
      (hstep : u.step c e = some v) : Tracked c v := tracked_step h (sound_of_pageable hok) hstep
  have hmid : Tracked c s := Trace.exec_invariant hkeep (tracked_new store) hok hs
  have hend : Tracked c t := Trace.exec_invariant hkeep hmid hok' ht
  refine ⟨heldIds_nodup hend.orderly, fun id hid => ?_⟩
  have hacc : s.tally.Accounted c.storeKey id :=
    hid.elim (fun h => .inr (.inl h)) fun h => .inr (.inr (.inl h))
  have hrun : Tracked c t ∧ t.tally.Accounted c.storeKey id :=
    Trace.exec_invariant (I := fun u => Tracked c u ∧ u.tally.Accounted c.storeKey id)
      (fun h hok hstep => ⟨hkeep h.1 hok hstep, accounted_step h.1 hok h.2 hstep⟩)
      ⟨hmid, hacc⟩ hok' ht
  rcases hrun.2 with hheld | hhand | hdisk | ⟨r, hr, hid, hfin, -⟩
  · exact .inl (((hend.orderly.books id).mem_present_iff).mp hheld)
  · exact .inr (.inl hhand)
  · exact .inr (.inr (.inl (stillReturned_of_onDisk hdisk)))
  · exact .inr (.inr (.inr ⟨r, hr, hid, hfin⟩))

/-! ### Recovery under an older version's rows -/

/-- Recovery hands over both jobs and attaches the queue's own key after the first; the loop then
pages the second in before it takes the first from the channel. -/
def recovery : List Event :=
  [.reserve (smallJob 1), .setKey (smallJob 1), .send (smallJob 1), .reserve (smallJob 2),
    .setKey (smallJob 2), .send (smallJob 2),
    .attachSpill smallConfig.storeKey (cursorAt (smallJob 1)) 1 100]

def pageFirst : List Event := [.takeSpills, .refillPage 0 0, .recvCmd 0 0]

theorem recovery_isSome (status : Status) : (Trace.exec (step smallConfig)
    (new smallConfig (smallStore status)) recovery).isSome = true := by
  cases status <;> decide +kernel

def recovered (status : Status) : AccountQueue := (Trace.exec (step smallConfig)
  (new smallConfig (smallStore status)) recovery).get (recovery_isSome status)

theorem pageFirst_isSome (status : Status) :
    (Trace.exec (step smallConfig) (recovered status) pageFirst).isSome = true := by
  cases status <;> decide +kernel

def paged (status : Status) : AccountQueue :=
  (Trace.exec (step smallConfig) (recovered status) pageFirst).get (pageFirst_isSome status)

/-- After an older version left the rows in flight, the first job's hand-off is turned away and its
row is behind every cursor: nothing runs it until the next restart. -/
theorem inFlight_handoff_lost :
    ∃ s t, Trace.exec (step smallConfig) (new smallConfig (smallStore .inFlight)) recovery =
      some s ∧
      Trace.exec (step smallConfig) s pageFirst = some t ∧ s.tally.InHand "1" ∧
      "1" ∉ t.heldIds ∧ ¬ t.tally.InHand "1" ∧ ¬ t.StillReturned "1" ∧ ¬ t.tally.Finished "1" := by
  refine ⟨recovered .inFlight, paged .inFlight, (Option.some_get _).symm, (Option.some_get _).symm,
    by decide +kernel, by decide +kernel, by decide +kernel, ?_, by decide +kernel⟩
  rintro ⟨src, hsrc, r, hr, hid, -, hret⟩
  have hnone : ∀ src ∈ (paged .inFlight).sources, ∀ r ∈ (paged .inFlight).store.rows, r.id = "1" →
      r.live 0 = true ∧ r.job.asQueued ∉ (paged .inFlight).store.queuedPage src.key src.after 0
        ((paged .inFlight).store.rows.length + 1) 0 := by
    decide +kernel
  obtain ⟨hlive, hno⟩ := hnone src hsrc r hr hid
  exact hno (hret 0 hlive)

theorem recovery_pageable :
    Trace.Along (step smallConfig) (fun q e => q.pageable smallConfig e = true)
      (new smallConfig (smallStore .queued)) recovery ∧
    Trace.Along (step smallConfig) (fun q e => q.pageable smallConfig e = true)
      (recovered .queued) pageFirst := by
  decide +kernel

/-- With queued rows the same interleaving keeps both jobs. -/
theorem paging_keeps_jobs_recovery :
    (paged .queued).heldIds.Nodup ∧ ((recovered .queued).tally.InHand "1" ∧
      ((paged .queued).heldIds.contains "1" = true ∨ (paged .queued).tally.InHand "1" ∨
        (paged .queued).StillReturned "1" ∨ (paged .queued).tally.Finished "1")) := by
  have hkeep := paging_keeps_jobs smallConfig (smallStore .queued) recovery pageFirst
    (recovered .queued) (paged .queued) (Option.some_get _).symm (Option.some_get _).symm
    recovery_pageable.1 recovery_pageable.2
  have hin : (recovered .queued).tally.InHand "1" := by decide +kernel
  refine ⟨hkeep.1, hin, ?_⟩
  rw [List.contains_iff_mem]
  exact hkeep.2 "1" (.inl hin)

end AccountQueue

end Aquifer
