import Aquifer.Dispatch.Backlog

/-! The backlog count has no more on it than its jobs, so that a quiet queue's count is exact. -/
namespace Aquifer

namespace Tally

variable {e : Event} {l l' : Tally} {tok : Finset String} {id key : String} {job : Job}
  {src : SpillSource} {rest : List SpillSource} {r : Row}

/-- A token may be out for the job: it is held, or pending and either handed over or on disk ahead
of the queue's own source, which was not attached to count it. -/
def Paid (key : String) (l : Tally) (id : String) : Prop :=
  id ∈ l.held ∨ ∃ r ∈ l.store.rows, r.id = id ∧ r.pending = true ∧
    (l.InHand id ∨ ∃ src ∈ l.sources, src.key = key ∧ l.Ahead src r ∧ src.within r.job = false)

/-- Every token is out for a job, and the tokens and the sources' reservations are all the backlog
consists of. -/
structure AtMost (key : String) (l : Tally) (tok : Finset String) : Prop where
  paid : ∀ id ∈ tok, l.Paid key id
  distinct : (l.sources.map SpillSource.key).Nodup
  sum : l.backlog ≤ tok.card + l.outstanding

/-- No job that a source counts is at the same time handed over, unless it is held already. -/
def Clear (l : Tally) : Prop :=
  ∀ src ∈ l.sources, ∀ r ∈ l.store.rows, l.Ahead src r → src.within r.job = true →
    r.id ∉ l.held → ¬ l.InHand r.id

theorem AtMost.eq_of_key (h : AtMost key l tok) {s s' : SpillSource} (hs : s ∈ l.sources)
    (hs' : s' ∈ l.sources) (hk : s.key = s'.key) : s = s' :=
  List.inj_on_of_nodup_map h.distinct hs hs' hk

/-- No token is out for a job that its source still counts. -/
theorem AtMost.not_mem_of_counts (h : AtMost key l tok) (hs : src ∈ l.sources)
    (ha : l.Ahead src r) (hc : src.counts r.job = true) (hheld : r.id ∉ l.held)
    (hhand : ¬ l.InHand r.id) : r.id ∉ tok := by
  intro hmem
  rcases h.paid r.id hmem with hh | ⟨r', hr', hid, -, hin | ⟨s, hsm, hk, ha', hw⟩⟩
  · exact hheld hh
  · exact hhand hin
  · have heq : r' = r := Table.eq_of_id hr' ha.1.1 hid
    subst heq
    have hsrc : s = src := h.eq_of_key hsm hs (ha'.2.1.symm.trans ha.2.1)
    rw [hsrc, ((src.counts_iff r'.job).mp hc).1] at hw
    cases hw

theorem Paid.mono (h : l.Paid key id) (hheld : id ∈ l.held → id ∈ l'.held)
    (hhand : l.InHand id → l'.InHand id) (hrow : ∀ r ∈ l.store.rows, r.id = id → r ∈ l'.store.rows)
    (hsrc : ∀ src ∈ l.sources, ∃ src' ∈ l'.sources, src'.key = src.key ∧ src'.after = src.after ∧
      ∀ job, src'.within job = src.within job) : l'.Paid key id := by
  rcases h with h | ⟨r, hr, hid, hp, hin | ⟨s, hs, hk, ha, hw⟩⟩
  · exact .inl (hheld h)
  · exact .inr ⟨r, hrow r hr hid, hid, hp, .inl (hhand hin)⟩
  · obtain ⟨s', hs', hk', ha', hw'⟩ := hsrc s hs
    refine .inr ⟨r, hrow r hr hid, hid, hp, .inr ⟨s', hs', hk'.trans hk, ?_, (hw' _).trans hw⟩⟩
    exact ⟨⟨hrow r hr hid, hp⟩, ha.2.1.trans hk'.symm, ha' ▸ ha.2.2⟩

theorem sources_self : ∀ src ∈ l.sources, ∃ src' ∈ l.sources, src'.key = src.key ∧
    src'.after = src.after ∧ ∀ job, src'.within job = src.within job :=
  fun src hs => ⟨src, hs, rfl, rfl, fun _ => rfl⟩

/-- Only the row of a job that is held may be written. -/
theorem AtMost.rewrite {closed : Finset String} {store : Store} (h : AtMost key l tok)
    (hheld : id ∈ l.held) (hrow : ∀ r ∈ l.store.rows, r.id ≠ id → r ∈ store.rows) :
    AtMost key { l with closed, store } tok := by
  refine { h with paid := fun i hi => ?_ }
  by_cases hii : i = id
  · exact .inl (hii ▸ hheld)
  · refine (h.paid i hi).mono (fun h => h) (fun h => h) (fun r hr hid => ?_) sources_self
    exact hrow r hr fun he => hii (hid.symm.trans he)

theorem AtMost.settle (h : AtMost key l tok) : AtMost key (l.settle id) (tok.erase id) := by
  refine ⟨fun i hi => ?_, h.distinct, ?_⟩
  · obtain ⟨hne, hi⟩ := Finset.mem_erase.mp hi
    exact (h.paid i hi).mono (fun h => Finset.mem_erase.mpr ⟨hne, h⟩) (fun h => h)
      (fun r hr _ => hr)
      sources_self
  · have hsum := h.sum
    have hcard := Finset.pred_card_le_card_erase (s := tok) (a := id)
    change l.backlog - 1 ≤ ((tok.erase id).card : Int) + l.outstanding
    omega

/-- A page load keeps the tokens right when the rows it passes over are visible and the jobs it
counts are not handed over as well. -/
theorem AtMost.load {now clock : Time} {row : Row} (h : AtMost key l tok)
    (hv : l.Visible (.refillPage now clock)) (hc : l.Clear)
    (hs : l.sources = src :: rest) (hrow : l.Ahead src row)
    (hnext : ∀ r' ∈ l.store.pendingUnder src.key clock, src.after.covers r'.job = false →
      r' = row ∨ (cursorAt row.job).covers r'.job = false) :
    ∃ tok', AtMost key (l.load src rest row.job.asQueued) tok' := by
  have hsrc : src ∈ l.sources := hs ▸ List.mem_cons_self
  have hdis : ((l.load src rest row.job.asQueued).sources.map SpillSource.key).Nodup := by
    have hd := h.distinct
    rw [hs] at hd
    exact hd
  have hout : (l.load src rest row.job.asQueued).outstanding +
      (if src.counts row.job then 1 else 0) = l.outstanding := outstanding_load hs row.job.asQueued
  have hsum := h.sum
  have hloaded : (l.load src rest row.job.asQueued).Paid key row.id :=
    .inl (Finset.mem_insert_self _ _)
  have hpaid : ∀ i ∈ tok, (l.load src rest row.job.asQueued).Paid key i := by
    intro i hi
    rcases h.paid i hi with hh | ⟨r, hr, hid, hp, hin | ⟨s, hsm, hk, ha, hw⟩⟩
    · exact .inl (Finset.mem_insert_of_mem hh)
    · exact .inr ⟨r, hr, hid, hp, .inl hin⟩
    · have hlive := hv s hsm r hr ha.2.1 hp
      have hsm' := hsm
      rw [hs] at hsm'
      rcases List.mem_cons.mp hsm' with rfl | hrest
      · have hmem : r ∈ l.store.pendingUnder s.key clock :=
          Store.mem_pendingUnder.mpr ⟨hr, hlive, ha.2.1, hp⟩
        rcases hnext r hmem ha.2.2 with rfl | hun
        · exact hid ▸ hloaded
        · exact .inr ⟨r, hr, hid, hp, .inr ⟨s.handOver row.job.asQueued, List.mem_cons_self, hk,
            ⟨ha.1, ha.2.1, hun⟩, hw⟩⟩
      · exact .inr ⟨r, hr, hid, hp, .inr ⟨s, List.mem_cons_of_mem _ hrest, hk, ha, hw⟩⟩
  by_cases hheld : row.id ∈ l.held
  · have hb : (l.load src rest row.job.asQueued).backlog =
        l.backlog - (if src.counts row.job then 1 else 0 : Nat) := backlog_load src rest hheld
    refine ⟨tok, hpaid, hdis, ?_⟩
    omega
  · have hb : (l.load src rest row.job.asQueued).backlog = l.backlog := if_neg fun h => hheld h.1
    cases hcount : src.counts row.job with
    | true =>
      -- The source's count becomes the job's own token.
      have hw := ((src.counts_iff row.job).mp hcount).1
      have hnot := h.not_mem_of_counts hsrc hrow hcount hheld
        (hc src hsrc row hrow.1.1 hrow hw hheld)
      refine ⟨insert row.id tok, fun i hi => ?_, hdis, ?_⟩
      · rcases Finset.mem_insert.mp hi with rfl | hi
        · exact hloaded
        · exact hpaid i hi
      · rw [Finset.card_insert_of_notMem hnot]
        rw [hcount, if_pos rfl] at hout
        omega
    | false =>
      refine ⟨tok, hpaid, hdis, ?_⟩
      rw [hcount, if_neg (by simp)] at hout
      omega

theorem AtMost.finish {now clock : Time} (h : AtMost key l tok)
    (hv : l.Visible (.refillPage now clock)) (hs : l.sources = src :: rest)
    (hall : ∀ r ∈ l.store.pendingUnder src.key clock, src.after.covers r.job = true) :
    AtMost key (l.finish src rest) tok := by
  refine ⟨fun i hi => ?_, ?_, ?_⟩
  · rcases h.paid i hi with hh | ⟨r, hr, hid, hp, hin | ⟨s, hsm, hk, ha, hw⟩⟩
    · exact .inl hh
    · exact .inr ⟨r, hr, hid, hp, .inl hin⟩
    · have hlive := hv s hsm r hr ha.2.1 hp
      rw [hs] at hsm
      rcases List.mem_cons.mp hsm with rfl | hrest
      · have hcov := hall r (Store.mem_pendingUnder.mpr ⟨hr, hlive, ha.2.1, hp⟩)
        exact absurd (hcov.symm.trans ha.2.2) (by simp)
      · exact .inr ⟨r, hr, hid, hp, .inr ⟨s, hrest, hk, ha, hw⟩⟩
  · have hd := h.distinct
    rw [hs, List.map_cons, List.nodup_cons] at hd
    exact hd.2
  · have hsum := h.sum
    have hout := outstanding_finish hs
    have hb : (l.finish src rest).backlog = l.backlog - (src.remaining : Nat) := rfl
    omega

theorem AtMost.sweep {now : Time} {i : Nat} {row : Row} (h : AtMost key l tok)
    (hc : l.Clear) (hs : l.sources[i]? = some src) (hrow : l.Ahead src row)
    (hheld : row.id ∉ l.held) :
    AtMost key (l.sweep i src now row.job.asQueued) (tok.erase row.id) := by
  have hsrc : src ∈ l.sources := List.mem_of_getElem? hs
  have hout : (l.sweep i src now row.job.asQueued).outstanding +
      (if src.counts row.job then 1 else 0) = l.outstanding := outstanding_set hs row.job.asQueued
  have hb : (l.sweep i src now row.job.asQueued).backlog = l.backlog - 1 := rfl
  have hsum := h.sum
  refine ⟨fun j hj => ?_, ?_, ?_⟩
  · obtain ⟨hne, hj⟩ := Finset.mem_erase.mp hj
    refine (h.paid j hj).mono (fun h => h) (fun h => h) (fun r hr hid => ?_) (fun s hsm => ?_)
    · exact Store.mem_updateStatus.mpr (.inl ⟨hr, fun he => hne (hid.symm.trans he)⟩)
    · obtain ⟨s', hs', rfl | rfl⟩ := exists_mem_set_spend hs row.job.asQueued s hsm
      · exact ⟨s', hs', rfl, rfl, fun _ => rfl⟩
      · exact ⟨_, hs', rfl, rfl, fun _ => rfl⟩
  · have hmap : (l.sweep i src now row.job.asQueued).sources.map SpillSource.key =
        l.sources.map SpillSource.key := by
      obtain ⟨hi, hget⟩ := List.getElem?_eq_some_iff.mp hs
      have hi' : i < (l.sources.map SpillSource.key).length := by rwa [List.length_map]
      have hkey : (src.spend row.job.asQueued).key = (l.sources.map SpillSource.key)[i] := by
        rw [List.getElem_map, hget]
        rfl
      change (l.sources.set i (src.spend row.job.asQueued)).map SpillSource.key = _
      rw [List.map_set, hkey, List.set_getElem_self]
    rw [hmap]
    exact h.distinct
  · cases hcount : src.counts row.job with
    | true =>
      have hw := ((src.counts_iff row.job).mp hcount).1
      have hnot := h.not_mem_of_counts hsrc hrow hcount hheld
        (hc src hsrc row hrow.1.1 hrow hw hheld)
      rw [Finset.erase_eq_of_notMem hnot]
      rw [hcount, if_pos rfl] at hout
      omega
    | false =>
      have hcard := Finset.pred_card_le_card_erase (s := tok) (a := row.id)
      rw [hcount, if_neg (by simp)] at hout
      omega

theorem AtMost.turn (ht : Turn e l l') (hv : l.Visible e) (hc : e.reads = true → l.Clear)
    (h : AtMost key l tok) : ∃ tok', AtMost key l' tok' := by
  cases ht with
  | close _ hheld =>
    exact ⟨tok, h.rewrite hheld fun r hr hne => Store.mem_updateStatus.mpr (.inl ⟨hr, hne⟩)⟩
  | retry hheld =>
    exact ⟨tok, h.rewrite hheld fun r hr hne => Store.mem_recordRetry.mpr (.inl ⟨hr, hne⟩)⟩
  | settle => exact ⟨_, h.settle⟩
  | load hs hr ha hnext =>
    obtain ⟨hr, -, hk, hp⟩ := Store.mem_pendingUnder.mp hr
    exact h.load hv (hc rfl) hs ⟨⟨hr, hp⟩, hk, ha⟩ hnext
  | finish hs hall => exact ⟨tok, h.finish hv hs hall⟩
  | sweep hs hr hk hp ha hheld => exact ⟨_, h.sweep (hc rfl) hs ⟨⟨hr, hp⟩, hk, ha⟩ hheld⟩

theorem Clear.turn (ht : Turn e l l') (hc : e.reads = true → l.Clear) :
    e.reads = true → l'.Clear := by
  intro hreads
  replace hc := hc hreads
  cases ht with
  | close he | settle he => exact absurd (he.symm.trans hreads) (by simp)
  | retry => cases hreads
  | @load _ _ _ src rest row hs hr ha hnext =>
    intro s hsm r hrm har hw hheld
    have hne : r.id ∉ l.held := fun hin => hheld (Finset.mem_insert_of_mem hin)
    rcases List.mem_cons.mp hsm with rfl | hrest
    · have hrow := (Store.mem_pendingUnder.mp hr).1
      exact hc src (hs ▸ List.mem_cons_self) r hrm (ahead_of_load hrow ha har).1 hw hne
    · exact hc s (hs ▸ List.mem_cons_of_mem _ hrest) r hrm har hw hne
  | finish hs =>
    intro s hsm r
    exact hc s (hs ▸ List.mem_cons_of_mem _ hsm) r
  | @sweep _ clock now i src row hs hr hk hp ha hheld =>
    intro s hsm r hrm har hw
    obtain ⟨hr', -⟩ := (Store.mem_updateStatus_pending rfl).mp har.1
    rcases List.mem_or_eq_of_mem_set hsm with hsm | rfl
    · exact hc s hsm r hr'.1 ⟨hr', har.2⟩ hw
    · exact hc src (List.mem_of_getElem? hs) r hr'.1 ⟨hr', har.2⟩ hw

/-! ### Hand-offs, sources and the writes of others -/

theorem AtMost.reserve (h : AtMost key l tok)
    (hrow : ∃ r ∈ l.store.rows, r.id = job.id ∧ r.pending = true) (hnew : ¬ l.Paid key job.id) :
    AtMost key (l.reserve job) (insert job.id tok) := by
  have hmore {i : String} (hin : l.InHand i) : (l.reserve job).InHand i := by
    obtain ⟨j, hj, hid⟩ := hin
    refine ⟨j, ?_, hid⟩
    rw [Tally.reserve, Multiset.cons_add]
    exact Multiset.mem_cons_of_mem hj
  refine ⟨fun i hi => ?_, h.distinct, ?_⟩
  · rcases Finset.mem_insert.mp hi with rfl | hi
    · obtain ⟨r, hr, hid, hp⟩ := hrow
      refine .inr ⟨r, hr, hid, hp, .inl ⟨job, ?_, rfl⟩⟩
      rw [Tally.reserve, Multiset.cons_add]
      exact Multiset.mem_cons_self _ _
    · exact (h.paid i hi).mono (fun h => h) hmore (fun r hr _ => hr) sources_self
  · have hsum := h.sum
    rw [Finset.card_insert_of_notMem fun hm => hnew (h.paid _ hm)]
    change l.backlog + 1 ≤ ((tok.card + 1 : Nat) : Int) + l.outstanding
    omega

theorem AtMost.setKey (h : AtMost key l tok) : AtMost key (l.setKey key job) tok := by
  have hin : (l.setKey key job).InHand job.id :=
    ⟨job, Multiset.mem_add.mpr (.inr (Multiset.mem_cons_self _ _)), rfl⟩
  refine { h with paid := fun i hi => ?_ }
  by_cases hii : i = job.id
  · subst hii
    rcases h.paid job.id hi with hh | ⟨r, hr, hid, hp, -⟩
    · exact .inl hh
    · exact .inr ⟨{ r with queueKey := key }, Store.mem_setQueueKey.mpr (.inr ⟨r, hr, hid, rfl⟩),
        hid, hp, .inl hin⟩
  · refine (h.paid i hi).mono (fun h => h) ?_ (fun r hr hid => ?_) sources_self
    · rintro ⟨j, hj, hid⟩
      refine ⟨j, ?_, hid⟩
      have hne : j ≠ job := fun he => hii (hid ▸ congrArg Job.id he)
      rcases Multiset.mem_add.mp hj with hj | hj
      · exact Multiset.mem_add.mpr (.inl ((Multiset.mem_erase_of_ne hne).mpr hj))
      · exact Multiset.mem_add.mpr (.inr (Multiset.mem_cons_of_mem hj))
    · exact Store.mem_setQueueKey.mpr (.inl ⟨hr, fun he => hii (hid.symm.trans he)⟩)

theorem AtMost.attach (h : AtMost key l tok) (hfresh : ∀ s ∈ l.sources, s.key ≠ src.key)
    (hzero : src.consumed = 0) : AtMost key (l.attach src) tok := by
  refine ⟨fun i hi => ?_, ?_, ?_⟩
  · exact (h.paid i hi).mono (fun h => h) (fun h => h) (fun r hr _ => hr)
      fun s hs => ⟨s, List.mem_append_left _ hs, rfl, rfl, fun _ => rfl⟩
  · have hmap : (l.attach src).sources.map SpillSource.key =
        l.sources.map SpillSource.key ++ [src.key] := by
      simp [Tally.attach]
    rw [hmap]
    refine List.Nodup.append h.distinct (List.nodup_singleton _) ?_
    intro k hk hk'
    obtain ⟨s, hs, rfl⟩ := List.mem_map.mp hk
    exact hfresh s hs (List.mem_singleton.mp hk')
  · have hsum := h.sum
    have hout : (l.attach src).outstanding = l.outstanding + src.reserved := by
      simp [outstanding, Tally.attach, SpillSource.remaining, hzero]
    have hb : (l.attach src).backlog = l.backlog + src.reserved := rfl
    omega

/-- A hand-off that is turned away: its job has a token for another reason, or is not pending. -/
theorem AtMost.drop (h : AtMost key l tok) (hjob : (l.drop job).Paid key job.id ∨
    ∀ r ∈ l.store.rows, r.id = job.id → r.pending = false) : AtMost key (l.drop job) tok := by
  refine { h with paid := fun i hi => ?_ }
  by_cases hii : i = job.id
  · subst hii
    rcases hjob with hpaid | hterm
    · exact hpaid
    · rcases h.paid job.id hi with hh | ⟨r, hr, hid, hp, -⟩
      · exact .inl hh
      · exact absurd ((hterm r hr hid).symm.trans hp) (by simp)
  · refine (h.paid i hi).mono (fun h => h) ?_ (fun r hr _ => hr) sources_self
    exact fun hin => hin.drop hii

theorem AtMost.accept (h : AtMost key l tok) : AtMost key (l.accept job) tok := by
  refine { h with paid := fun i hi => ?_ }
  by_cases hii : i = job.id
  · exact .inl (Finset.mem_insert.mpr (.inl hii))
  · refine (h.paid i hi).mono Finset.mem_insert_of_mem ?_ (fun r hr _ => hr)
      sources_self
    exact fun hin => hin.drop hii

theorem AtMost.external {store : Store} (h : AtMost key l tok)
    (hrow : ∀ r ∈ l.store.rows, l.Keeps r.id → r ∈ store.rows) :
    AtMost key (l.external store) tok := by
  refine { h with paid := fun i hi => ?_ }
  rcases h.paid i hi with hh | ⟨r, hr, hid, hp, hin | ⟨s, hs, hk, ha, hw⟩⟩
  · exact .inl hh
  · exact .inr ⟨r, hrow r hr (.inr (.inl (hid ▸ hin))), hid, hp, .inl hin⟩
  · have hacc : l.Keeps r.id := .inr (.inr ⟨s, hs, r, hr, rfl, hp, ha.2⟩)
    have hr' := hrow r hr hacc
    exact .inr ⟨r, hr', hid, hp, .inr ⟨s, hs, hk, ⟨⟨hr', hp⟩, ha.2⟩, hw⟩⟩

instance (key : String) (l : Tally) (id : String) : Decidable (l.Paid key id) :=
  inferInstanceAs (Decidable (_ ∨ ∃ r ∈ l.store.rows, r.id = id ∧ r.pending = true ∧
    (l.InHand id ∨ ∃ src ∈ l.sources, src.key = key ∧ l.Ahead src r ∧ src.within r.job = false)))

instance (l : Tally) : Decidable l.Clear :=
  inferInstanceAs (Decidable (∀ src ∈ l.sources, ∀ r ∈ l.store.rows, l.Ahead src r →
    src.within r.job = true → r.id ∉ l.held → ¬ l.InHand r.id))

end Tally

namespace AccountQueue

variable {c : QueueConfig} {q t : AccountQueue} {e : Event} {id : String} {job : Job} {now : Time}

/-- What also keeps the backlog from growing too large. A job is reserved while its row is pending
and no token is out for it; the keys of attached sources differ; a hand-off taken soon after a page
load does not find its row in flight, and one ahead of the queue's own source is not counted there;
what a page load or a sweep counts is not handed over as well, and no pending row of a source
expires before its page is read. -/
def orderlyCounts (c : QueueConfig) (q : AccountQueue) : Event → Bool
  | .reserve job => decide ((∃ r ∈ q.store.rows, r.Is job ∧ r.pending = true) ∧
      ¬ q.tally.Paid c.storeKey job.id)
  | .attachSpill key _ _ _ => decide (∀ src ∈ q.sources, src.key ≠ key)
  | .recvCmd now clock => q.pageable c (.recvCmd now clock) &&
      decide (∀ job ∈ q.cmds.head?, ∀ src ∈ q.spills, src.key = c.storeKey →
        src.after.covers job = false → src.within job = false)
  | .refillPage now clock => q.pageable c (.refillPage now clock) && decide q.tally.Clear
  | .sweepPage _ => decide q.tally.Clear
  | e => e.calm

/-- Both at once. -/
def exactCounts (c : QueueConfig) (q : AccountQueue) (e : Event) : Bool :=
  q.solvent c e && q.orderlyCounts c e

/-- The tokens of the queue all stand for jobs of its own. -/
def Frugal (c : QueueConfig) (q : AccountQueue) : Prop := ∃ tok, q.tally.AtMost c.storeKey tok

theorem frugal_new (store : Store) : Frugal c (new c store) := by
  refine ⟨∅, ?_⟩
  constructor <;> simp [tally, new, sources]

theorem visible_of_orderlyCounts (h : q.orderlyCounts c e = true) : q.tally.Visible e := by
  cases e with
  | refillPage now clock => exact visible_of_pageable (Bool.and_eq_true_iff.mp h).1
  | _ => trivial

theorem clear_of_orderlyCounts (h : q.orderlyCounts c e = true) (he : e.reads = true) :
    q.tally.Clear := by
  cases e with
  | refillPage now clock => exact of_decide_eq_true (Bool.and_eq_true_iff.mp h).2
  | sweepPage clock => exact of_decide_eq_true h
  | _ => cases he

/-- A hand-off the loop turns away has a token for another reason, or its row is terminal. -/
theorem paid_of_refused {rest : List Job} {clock : Time} (h : Tracked c q)
    (hq : q.cmds = job :: rest)
    (hfly : now < q.pagedOwnUntil → ∀ r ∈ q.store.rows, r.id = job.id → r.job.status ≠ .inFlight)
    (hown : ∀ src ∈ q.spills, src.key = c.storeKey → src.after.covers job = false →
      src.within job = false)
    (href : q.acceptHandoff c job now clock = false) :
    (q.tally.drop job).Paid c.storeKey job.id ∨
      ∀ r ∈ q.store.rows, r.id = job.id → r.pending = false := by
  obtain ⟨r, hr, his, hkey, hp | hp | ⟨hp, src, hsrc, hk, hcov⟩⟩ := row_of_refused h hq hfly href
  · exact .inl (.inl hp)
  · refine .inr fun r' hr' hid => ?_
    obtain rfl : r' = r := Table.eq_of_id hr' hr (hid.trans his.1.symm)
    exact hp
  · have hw : src.within r.job = false := by
      rw [← hown src hsrc hk hcov]
      simp only [SpillSource.within, his.covers, his.2]
    refine .inl (.inr ⟨r, hr, his.1, hp, .inr ⟨src, List.mem_append_left _ hsrc, hk, ?_, hw⟩⟩)
    exact ⟨⟨hr, hp⟩, hkey.trans hk.symm, (his.covers _).trans hcov⟩

theorem frugal_step (h : Tracked c q) (hf : Frugal c q) (hok : q.orderlyCounts c e = true)
    (hsol : q.solvent c e = true) (hstep : q.step c e = some t) : Frugal c t := by
  obtain ⟨tok, hf⟩ := hf
  by_cases hin : e.inner = true
  · let P (l : Tally) : Prop :=
      l.Visible e ∧ (e.reads = true → l.Clear) ∧ ∃ tok, l.AtMost c.storeKey tok
    have hP : P t.tally := (step_turns h.orderly h.ahead hin hstep).keep (P := P)
      ⟨visible_of_orderlyCounts hok, clear_of_orderlyCounts hok, tok, hf⟩
      fun ht ⟨hv, hc, tok, hat⟩ => ⟨hv.turn ht, Tally.Clear.turn ht hc, hat.turn ht hv hc⟩
    exact hP.2.2
  have hout := outer_of_step hin hstep
  change ∃ tok, t.tally.AtMost c.storeKey tok
  generalize t.tally = l at hout ⊢
  cases hout with
  | @reserve job =>
    obtain ⟨⟨r, hr, his, hp⟩, hnew⟩ := of_decide_eq_true hok
    exact ⟨insert job.id tok, hf.reserve ⟨r, hr, his.1, hp⟩ hnew⟩
  | setKey => exact ⟨tok, hf.setKey⟩
  | attach => exact ⟨tok, hf.attach (of_decide_eq_true hok) rfl⟩
  | external => exact ⟨tok, hf.external (of_decide_eq_true (Bool.and_eq_true_iff.mp hsol).1)⟩
  | accept => exact ⟨tok, hf.accept⟩
  | @drop now clock job rest hq href =>
    obtain ⟨hpage, hown⟩ := Bool.and_eq_true_iff.mp hok
    have hhead : job ∈ q.cmds.head? := by
      rw [hq]
      rfl
    exact ⟨tok, hf.drop (paid_of_refused h hq (of_decide_eq_true hpage job hhead)
      (of_decide_eq_true hown job hhead) href)⟩
  | panic | stop => cases hok

/-- The backlog count is exact. Once no hand-off is under way and no source is left, it is the
number of distinct jobs the queue holds. -/
theorem backlog_exact (c : QueueConfig) (store : Store) (es : List Event) (q : AccountQueue)
    (hrun : Trace.exec (step c) (new c store) es = some q)
    (hok : Trace.Along (step c) (fun q e => q.exactCounts c e = true) (new c store) es)
    (hhand : q.handOffs = []) (hsrc : q.sources = []) :
    q.backlog = q.heldIds.toFinset.card := by
  have hinv : Tracked c q ∧ Solvent q ∧ Frugal c q := by
    refine Trace.exec_invariant (I := fun q => Tracked c q ∧ Solvent q ∧ Frugal c q) ?_
      ⟨tracked_new store, solvent_new store, frugal_new store⟩ hok hrun
    rintro s t e ⟨htr, hs, hf⟩ hok hstep
    obtain ⟨hsol, hcnt⟩ := Bool.and_eq_true_iff.mp hok
    exact ⟨tracked_step_solvent htr hsol hstep, enough_step htr hs hsol hstep,
      frugal_step htr hf hcnt hsol hstep⟩
  obtain ⟨htr, ⟨tok, hen⟩, ⟨tok', hat⟩⟩ := hinv
  have hheld : q.heldIds.toFinset = q.present := by
    ext id
    rw [List.mem_toFinset, (htr.orderly.books id).mem_present_iff]
  have hout : q.tally.outstanding = 0 := by
    simp [Tally.outstanding, tally, hsrc]
  have hlow : (q.present.card : Int) ≤ q.tally.backlog := hen.card_le fun i hi => .inl hi
  -- With nothing handed over and nothing on disk every token is out for a held job.
  have hsub : tok' ⊆ q.present := by
    intro id hid
    rcases hat.paid id hid with hh | ⟨r, -, -, -, ⟨j, hj, -⟩ | ⟨s, hs, -⟩⟩
    · exact hh
    · have hnone : q.tally.reserved + q.tally.handed = (q.handOffs : Multiset Job) := by
        simp only [tally, handOffs, Multiset.coe_add, List.append_assoc]
      rw [hnone, hhand] at hj
      simp at hj
    · have hnone : q.tally.sources = [] := hsrc
      rw [hnone] at hs
      simp at hs
  have hcard := Finset.card_le_card hsub
  have hsum := hat.sum
  have hb : q.tally.backlog = q.backlog := rfl
  rw [hheld]
  omega

/-! ### Recovery of two jobs -/

/-- Both jobs are dispatched and answered. -/
def finishBoth : List Event :=
  [.dispatch 0, .dispatch 0, .execute 0 success, .execute 1 success, .report 0, .report 0,
    .recvDone 0, .recvDone 0]

/-- The second job of `recovery` is handed over and counted by the source too. The page is read
before its hand-off is taken. -/
def doubleCount : List Event :=
  recovery ++ pageFirst ++ [.recvCmd 0 0] ++ finishBoth ++ [.refillPage 0 0]

/-- The queue has nothing left to do and a backlog of one: the turned-away hand-off keeps its count,
which nothing ever releases. -/
theorem doubleCount_leaks :
    ∃ q, Trace.exec (step smallConfig) (new smallConfig (smallStore .queued)) doubleCount = some q ∧
      (∀ e ∈ doubleCount, e.calm = true) ∧ q.handOffs = [] ∧ q.sources = [] ∧ q.heldIds = [] ∧
      q.backlog = 1 := by
  decide +kernel

/-- Recovery as it is meant to be: the first job is handed over, the second left to the source. -/
def singleCount : List Event :=
  [.reserve (smallJob 1), .setKey (smallJob 1), .send (smallJob 1),
    .attachSpill "__shared__" (cursorAt (smallJob 1)) 1 100] ++ pageFirst ++ finishBoth ++
    [.refillPage 0 0]

theorem singleCount_exact :
    ∃ q, Trace.exec (step smallConfig) (new smallConfig (smallStore .queued))
    singleCount = some q ∧ q.served = 2 ∧ q.backlog = q.heldIds.toFinset.card := by
  obtain ⟨q, hq, hserved, hhand, hsrc⟩ : ∃ q, Trace.exec (step smallConfig)
      (new smallConfig (smallStore .queued)) singleCount = some q ∧ q.served = 2 ∧
      q.handOffs = [] ∧ q.sources = [] := by decide +kernel
  exact ⟨q, hq, hserved, backlog_exact smallConfig (smallStore .queued) singleCount q hq
    (by decide +kernel) hhand hsrc⟩

end AccountQueue

end Aquifer
