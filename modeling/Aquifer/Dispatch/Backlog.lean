import Aquifer.Dispatch.Paging
import Mathlib.Algebra.Order.BigOperators.Group.List
import Mathlib.Tactic.Linarith

/-! The backlog count: it is never below the jobs the queue owes, and exact once it is quiet. -/
namespace Aquifer

/-- The source was attached to count the job. -/
def SpillSource.within (src : SpillSource) (job : Job) : Bool :=
  job.createdAt < src.cutoff && !src.consumedThrough.covers job

def SpillSource.remaining (src : SpillSource) : Nat := src.reserved - src.consumed

theorem SpillSource.counts_iff (src : SpillSource) (job : Job) :
    src.counts job = true ↔ src.within job = true ∧ src.consumed < src.reserved := by
  rw [counts, ← within, Bool.and_eq_true, decide_eq_true_iff]

theorem SpillSource.remaining_spend (src : SpillSource) (job : Job) :
    (src.spend job).remaining + (if src.counts job then 1 else 0) = src.remaining := by
  cases hc : src.counts job with
  | true =>
    have hlt := ((src.counts_iff job).mp hc).2
    simp only [remaining, spend, hc, if_true]
    omega
  | false => simp [remaining, spend, hc]

theorem SpillSource.within_restart (src : SpillSource) (job : Job) :
    src.restart.within job = (src.within job && !src.after.covers job) := by
  have hmark : src.consumedThrough.covers
      { id := src.after.id, createdAt := src.after.createdAt } = true ↔
        src.after.pos ≤ src.consumedThrough.pos := PageCursor.covers_iff _ _
  have hcut : src.restart.cutoff = src.cutoff := rfl
  by_cases hc : src.after.pos ≤ src.consumedThrough.pos
  · have hr : src.restart.consumedThrough = src.consumedThrough := if_pos (hmark.mpr hc)
    rw [within, within, hcut, hr]
    cases ha : src.after.covers job with
    | false => simp
    | true =>
      have hct : src.consumedThrough.covers job = true := by
        rw [PageCursor.covers_iff] at ha ⊢
        exact ha.trans hc
      simp [hct]
  · have hr : src.restart.consumedThrough = src.after := if_neg fun h => hc (hmark.mp h)
    rw [within, within, hcut, hr]
    cases ha : src.after.covers job with
    | true => simp
    | false =>
      have hct : src.consumedThrough.covers job = false := by
        rw [PageCursor.not_covers_iff] at ha ⊢
        exact (not_le.mp hc).trans ha
      simp [hct]

namespace Tally

variable {e : Event} {l l' : Tally} {tok : Finset String} {id key : String} {job : Job}
  {src : SpillSource} {rest : List SpillSource} {r r' : Row}

/-- The row is pending under the source's key, past its cursor. -/
def Ahead (l : Tally) (src : SpillSource) (r : Row) : Prop :=
  (r ∈ l.store.rows ∧ r.pending = true) ∧ r.queueKey = src.key ∧ src.after.covers r.job = false

/-- The jobs still on disk that the source was attached to count. -/
def counted (l : Tally) (src : SpillSource) : Finset String :=
  ((l.store.rows.filter fun r => r.pending && r.queueKey = src.key && !src.after.covers r.job &&
    src.within r.job).map Row.id).toFinset

/-- What the sources have reserved and not handed over. -/
def outstanding (l : Tally) : Nat := (l.sources.map SpillSource.remaining).sum

theorem mem_counted : id ∈ l.counted src ↔ ∃ r, l.Ahead src r ∧ src.within r.job = true ∧
    r.id = id := by
  simp only [counted, List.mem_toFinset, List.mem_map, List.mem_filter, Bool.and_eq_true,
    decide_eq_true_iff, Bool.not_eq_true', Ahead]
  constructor
  · rintro ⟨r, ⟨hr, ⟨⟨hp, hk⟩, ha⟩, hw⟩, hid⟩
    exact ⟨r, ⟨⟨hr, hp⟩, hk, ha⟩, hw, hid⟩
  · rintro ⟨r, ⟨⟨hr, hp⟩, hk, ha⟩, hw, hid⟩
    exact ⟨r, ⟨hr, ⟨⟨hp, hk⟩, ha⟩, hw⟩, hid⟩

theorem counted_subset {src' : SpillSource}
    (h : ∀ r', l'.Ahead src' r' → src'.within r'.job = true →
      ∃ r, l.Ahead src r ∧ src.within r.job = true ∧ r.id = r'.id) :
    l'.counted src' ⊆ l.counted src := by
  intro i hi
  obtain ⟨r', ha, hw, rfl⟩ := mem_counted.mp hi
  exact mem_counted.mpr (h r' ha hw)

theorem outstanding_set {i : Nat} {srcs : List SpillSource} (hs : srcs[i]? = some src) (job : Job) :
    ((srcs.set i (src.spend job)).map SpillSource.remaining).sum +
      (if src.counts job then 1 else 0) = (srcs.map SpillSource.remaining).sum := by
  have hspend := src.remaining_spend job
  induction srcs generalizing i with
  | nil => simp at hs
  | cons s srcs ih =>
    cases i with
    | zero =>
      cases hs
      simp only [List.set_cons_zero, List.map_cons, List.sum_cons]
      omega
    | succ i =>
      have hrec := ih hs
      simp only [List.set_cons_succ, List.map_cons, List.sum_cons]
      omega

/-- A job that is handed over takes its count from the source. -/
theorem outstanding_load (hs : l.sources = src :: rest) (job : Job) :
    (l.load src rest job).outstanding + (if src.counts job then 1 else 0) = l.outstanding := by
  have hset : ((src.spend job :: rest).map SpillSource.remaining).sum +
      (if src.counts job then 1 else 0) = (l.sources.map SpillSource.remaining).sum := by
    rw [hs]
    exact outstanding_set List.getElem?_cons_zero job
  exact hset

theorem backlog_load (src : SpillSource) (rest : List SpillSource) (hheld : job.id ∈ l.held) :
    (l.load src rest job).backlog = l.backlog - (if src.counts job then 1 else 0 : Nat) := by
  simp only [load, hheld, true_and]
  split_ifs <;> simp

theorem outstanding_finish (hs : l.sources = src :: rest) :
    (l.finish src rest).outstanding + src.remaining = l.outstanding := by
  rw [outstanding, outstanding, hs, List.map_cons, List.sum_cons, Nat.add_comm]
  rfl

/-- The tokens `tok` pay for what no source counts: everything held, every pending hand-off and
every pending row ahead of a source that was not attached to count it. What a source counts fits
in its own reservation, and the backlog has room for all of it. -/
structure Enough (l : Tally) (tok : Finset String) : Prop where
  held : l.held ⊆ tok
  hand : ∀ job ∈ l.reserved + l.handed, ∀ r ∈ l.store.rows, r.id = job.id → r.pending = true →
    job.id ∈ tok
  ahead : ∀ src ∈ l.sources, ∀ r, l.Ahead src r → src.within r.job = false → r.id ∈ tok
  fits : ∀ src ∈ l.sources, (l.counted src).card ≤ src.remaining
  opened : ∀ id ∈ l.held, id ∉ l.closed → ∀ r ∈ l.store.rows, r.id = id → r.pending = true
  sum : (tok.card : Int) + l.outstanding ≤ l.backlog

/-- A row ahead of a source that cannot count any more of its jobs was never to be counted. -/
theorem Enough.mem_of_not_counts (h : Enough l tok) (hs : src ∈ l.sources) (ha : l.Ahead src r)
    (hc : src.counts r.job = false) : r.id ∈ tok := by
  refine h.ahead src hs r ha ?_
  by_contra hw
  rw [Bool.not_eq_false] at hw
  have hpos : 0 < (l.counted src).card := Finset.card_pos.mpr
    ⟨r.id, mem_counted.mpr ⟨r, ha, hw, rfl⟩⟩
  have hfit := h.fits src hs
  have hlt : src.consumed < src.reserved := by
    rw [SpillSource.remaining] at hfit
    omega
  rw [(src.counts_iff r.job).mpr ⟨hw, hlt⟩] at hc
  cases hc

theorem ahead_close {status : Status} {now : Time} (hst : status.pending = false) :
    (l.close id status now).Ahead src r ↔ l.Ahead src r ∧ r.id ≠ id := by
  simp only [Ahead, Tally.close, Store.mem_updateStatus_pending hst]
  tauto

theorem Enough.close {status : Status} {now : Time} (h : Enough l tok)
    (hst : status.pending = false) : Enough (l.close id status now) tok := by
  refine ⟨h.held, ?_, ?_, ?_, ?_, h.sum⟩
  · intro job hj r hr hid hp
    obtain ⟨⟨hr, hp⟩, -⟩ := (Store.mem_updateStatus_pending hst).mp ⟨hr, hp⟩
    exact h.hand job hj r hr hid hp
  · intro src hs r ha hw
    exact h.ahead src hs r ((ahead_close hst).mp ha).1 hw
  · intro src hs
    refine (Finset.card_le_card (counted_subset fun r ha hw => ?_)).trans (h.fits src hs)
    exact ⟨r, ((ahead_close hst).mp ha).1, hw, rfl⟩
  · intro i hi hno r hr hid
    rw [Tally.close, Finset.mem_insert, not_or] at hno
    rcases Store.mem_updateStatus.mp hr with ⟨hr, -⟩ | ⟨r', -, hid', rfl⟩
    · exact h.opened i hi hno.2 r hr hid
    · exact absurd (hid.symm.trans hid') hno.1

theorem Enough.retry {attempts : Int} (h : Enough l tok) (hheld : id ∈ l.held)
    (hopen : id ∉ l.closed) : Enough (l.retry id attempts) tok := by
  have twin {r' : Row} (hr' : r' ∈ (l.retry id attempts).store.rows) (hp : r'.pending = true) :
      ∃ r, (r ∈ l.store.rows ∧ r.pending = true) ∧ r.Is r'.job ∧ r.queueKey = r'.queueKey := by
    rcases Store.mem_recordRetry.mp hr' with ⟨hr, -⟩ | ⟨r, hr, hid, rfl⟩
    · exact ⟨r', ⟨hr, hp⟩, ⟨rfl, rfl⟩, rfl⟩
    · exact ⟨r, ⟨hr, h.opened id hheld hopen r hr hid⟩, ⟨rfl, rfl⟩, rfl⟩
  have back {src : SpillSource} {r' : Row} (ha : (l.retry id attempts).Ahead src r') :
      ∃ r, l.Ahead src r ∧ src.within r.job = src.within r'.job ∧ r.id = r'.id := by
    obtain ⟨⟨hr', hp⟩, hk, hc⟩ := ha
    obtain ⟨r, hr, his, hkey⟩ := twin hr' hp
    refine ⟨r, ⟨hr, hkey.trans hk, (his.covers _).trans hc⟩, ?_, his.1⟩
    simp only [SpillSource.within, his.covers, his.2]
  refine ⟨h.held, ?_, ?_, ?_, ?_, h.sum⟩
  · intro job hj r' hr' hid hp
    obtain ⟨r, hr, his, -⟩ := twin hr' hp
    exact h.hand job hj r hr.1 (his.1.trans hid) hr.2
  · intro src hs r' ha hw
    obtain ⟨r, ha, hw', hid⟩ := back ha
    exact hid ▸ h.ahead src hs r ha (hw'.trans hw)
  · intro src hs
    refine (Finset.card_le_card (counted_subset fun r' ha hw => ?_)).trans (h.fits src hs)
    obtain ⟨r, ha, hw', hid⟩ := back ha
    exact ⟨r, ha, hw'.trans hw, hid⟩
  · intro i hi hno r' hr' hid
    rcases Store.mem_recordRetry.mp hr' with ⟨hr, -⟩ | ⟨r, hr, -, rfl⟩
    · exact h.opened i hi hno r' hr hid
    · rfl

theorem Enough.settle (h : Enough l tok) (hb : Backed key l) (hheld : id ∈ l.held)
    (hclosed : id ∈ l.closed) : Enough (l.settle id) (tok.erase id) := by
  have hne {r : Row} (hr : r ∈ l.store.rows) (hp : r.pending = true) : r.id ≠ id := by
    intro hid
    rw [hb.closed id hclosed r hr hid] at hp
    cases hp
  refine ⟨Finset.erase_subset_erase id h.held, ?_, ?_, h.fits, ?_, ?_⟩
  · intro job hj r hr hid hp
    exact Finset.mem_erase.mpr ⟨hid ▸ hne hr hp, h.hand job hj r hr hid hp⟩
  · intro src hs r ha hw
    exact Finset.mem_erase.mpr ⟨hne ha.1.1 ha.1.2, h.ahead src hs r ha hw⟩
  · intro i hi hno
    obtain ⟨hii, hi⟩ := Finset.mem_erase.mp hi
    refine h.opened i hi fun hc => hno (Finset.mem_erase.mpr ⟨hii, hc⟩)
  · have hcard := Finset.card_erase_of_mem (h.held hheld)
    have hpos : 0 < tok.card := Finset.card_pos.mpr ⟨id, h.held hheld⟩
    have hsum := h.sum
    change ((tok.erase id).card : Int) + l.outstanding ≤ l.backlog - 1
    omega

/-- What is ahead of the source once it has handed over its next row was ahead before. -/
theorem ahead_of_load {row : Row} (hrow : row ∈ l.store.rows)
    (ha : src.after.covers row.job = false)
    (h : (l.load src rest row.job.asQueued).Ahead (src.handOver row.job.asQueued) r) :
    l.Ahead src r ∧ r.id ≠ row.id := by
  obtain ⟨hr, hk, hcov⟩ := h
  rw [PageCursor.not_covers_iff] at ha hcov
  have hlt : row.job.pos < r.job.pos := hcov
  refine ⟨⟨hr, hk, (PageCursor.not_covers_iff _ _).mpr (ha.trans hlt)⟩, fun hid => ?_⟩
  have heq : r = row := Table.eq_of_id hr.1 hrow hid
  exact absurd (heq ▸ hlt) (lt_irrefl _)

theorem card_erase_counted {row : Row} (hrow : l.Ahead src row) :
    ((l.counted src).erase row.id).card + (if src.counts row.job then 1 else 0) ≤
      (l.counted src).card := by
  split
  · next hc =>
    have hmem : row.id ∈ l.counted src :=
      mem_counted.mpr ⟨row, hrow, ((src.counts_iff row.job).mp hc).1, rfl⟩
    exact (Finset.card_erase_add_one hmem).le
  · exact Finset.card_erase_le (s := l.counted src) (a := row.id)

/-- A source that hands over a job it counts has one job less to count. -/
theorem counted_load (rest : List SpillSource) {row : Row} (hrow : l.Ahead src row) :
    ((l.load src rest row.job.asQueued).counted (src.handOver row.job.asQueued)).card +
      (if src.counts row.job then 1 else 0) ≤ (l.counted src).card := by
  have hsub : (l.load src rest row.job.asQueued).counted (src.handOver row.job.asQueued) ⊆
      (l.counted src).erase row.id := by
    intro i hi
    obtain ⟨r, ha, hw, rfl⟩ := mem_counted.mp hi
    obtain ⟨ha, hne⟩ := ahead_of_load hrow.1.1 hrow.2.2 ha
    exact Finset.mem_erase.mpr ⟨hne, mem_counted.mpr ⟨r, ha, hw, rfl⟩⟩
  have hcard := Finset.card_le_card hsub
  exact (Nat.add_le_add_right hcard _).trans (card_erase_counted hrow)

theorem Enough.load {row : Row} (h : Enough l tok) (hs : l.sources = src :: rest)
    (hrow : l.Ahead src row) :
    ∃ tok', Enough (l.load src rest row.job.asQueued) tok' := by
  have hsrc : src ∈ l.sources := hs ▸ List.mem_cons_self
  have hcounts : src.counts row.job.asQueued = src.counts row.job := rfl
  have hspend := src.remaining_spend row.job.asQueued
  have hcounted := counted_load rest hrow
  have hfit := h.fits src hsrc
  have hout : (l.load src rest row.job.asQueued).outstanding +
      (if src.counts row.job then 1 else 0) = l.outstanding := outstanding_load hs row.job.asQueued
  have hsum := h.sum
  -- The job keeps its token, or gets the one its source gives up.
  refine ⟨insert row.id tok, Finset.insert_subset_insert _ h.held, ?_, ?_, ?_, ?_, ?_⟩
  · intro job hj r hr hid hp
    exact Finset.mem_insert_of_mem (h.hand job hj r hr hid hp)
  · intro s hsm r ha hw
    rcases List.mem_cons.mp hsm with rfl | hsm
    · exact Finset.mem_insert_of_mem
        (h.ahead src hsrc r (ahead_of_load hrow.1.1 hrow.2.2 ha).1 hw)
    · exact Finset.mem_insert_of_mem (h.ahead s (hs ▸ List.mem_cons_of_mem _ hsm) r ha hw)
  · intro s hsm
    rcases List.mem_cons.mp hsm with rfl | hsm
    · change _ ≤ (src.spend row.job.asQueued).remaining
      rw [hcounts] at hspend
      omega
    · exact h.fits s (hs ▸ List.mem_cons_of_mem _ hsm)
  · intro i hi hno r hr hid
    rcases Finset.mem_insert.mp hi with rfl | hi
    · have heq : r = row := Table.eq_of_id hr hrow.1.1 hid
      exact heq ▸ hrow.1.2
    · exact h.opened i hi hno r hr hid
  · have hle := Finset.card_insert_le row.id tok
    by_cases hheld : row.id ∈ l.held
    · have hb : (l.load src rest row.job.asQueued).backlog =
          l.backlog - (if src.counts row.job then 1 else 0 : Nat) := backlog_load src rest hheld
      rw [Finset.insert_eq_of_mem (h.held hheld)]
      omega
    · have hb : (l.load src rest row.job.asQueued).backlog = l.backlog := if_neg fun h => hheld h.1
      cases hc : src.counts row.job with
      | true =>
        rw [hc, if_pos rfl] at hout
        omega
      | false =>
        rw [Finset.insert_eq_of_mem (h.mem_of_not_counts hsrc hrow hc)]
        rw [hc, if_neg (by simp)] at hout
        omega

theorem Enough.finish (h : Enough l tok) (hs : l.sources = src :: rest) :
    Enough (l.finish src rest) tok := by
  have hrest (s : SpillSource) (hsm : s ∈ rest) : s ∈ l.sources := hs ▸ List.mem_cons_of_mem _ hsm
  refine ⟨h.held, h.hand, ?_, ?_, h.opened, ?_⟩
  · intro s hsm
    exact h.ahead s (hrest s hsm)
  · intro s hsm
    exact h.fits s (hrest s hsm)
  · have hsum := h.sum
    have hout := outstanding_finish hs
    have hb : (l.finish src rest).backlog = l.backlog - (src.remaining : Nat) := rfl
    omega

theorem Enough.sweep {i : Nat} {now : Time} {row : Row} (h : Enough l tok)
    (hs : l.sources[i]? = some src) (hrow : l.Ahead src row) (hheld : row.id ∉ l.held) :
    ∃ tok', Enough (l.sweep i src now row.job.asQueued) tok' := by
  have hsrc : src ∈ l.sources := List.mem_of_getElem? hs
  have hpend {r : Row} : r ∈ (l.sweep i src now row.job.asQueued).store.rows ∧ r.pending = true ↔
      (r ∈ l.store.rows ∧ r.pending = true) ∧ r.id ≠ row.id := Store.mem_updateStatus_pending rfl
  have hahead {s : SpillSource} {r : Row} (ha : (l.sweep i src now row.job.asQueued).Ahead s r) :
      l.Ahead s r ∧ r.id ≠ row.id := by
    obtain ⟨hr, hrest⟩ := ha
    exact ⟨⟨(hpend.mp hr).1, hrest⟩, (hpend.mp hr).2⟩
  have hcounts : src.counts row.job.asQueued = src.counts row.job := rfl
  have hspend := src.remaining_spend row.job.asQueued
  have hout : (l.sweep i src now row.job.asQueued).outstanding +
      (if src.counts row.job then 1 else 0) = l.outstanding := outstanding_set hs row.job.asQueued
  have hb : (l.sweep i src now row.job.asQueued).backlog = l.backlog - 1 := rfl
  have hcounted (s : SpillSource) :
      (l.sweep i src now row.job.asQueued).counted s ⊆ (l.counted s).erase row.id := by
    intro j hj
    obtain ⟨r, ha, hw, rfl⟩ := mem_counted.mp hj
    exact Finset.mem_erase.mpr ⟨(hahead ha).2, mem_counted.mpr ⟨r, (hahead ha).1, hw, rfl⟩⟩
  have hsum := h.sum
  have hopened : ∀ j ∈ l.held, j ∉ l.closed →
      ∀ r ∈ (l.sweep i src now row.job.asQueued).store.rows, r.id = j → r.pending = true := by
    intro j hj hno r hr hid
    rcases Store.mem_updateStatus.mp hr with ⟨hr, -⟩ | ⟨r', -, hid', rfl⟩
    · exact h.opened j hj hno r hr hid
    · have heq : row.id = j := hid'.symm.trans hid
      exact absurd (heq ▸ hj) hheld
  -- Without its source's count the job gives up its own token.
  refine ⟨if src.counts row.job then tok else tok.erase row.id, ?_, ?_, ?_, ?_, hopened, ?_⟩
  · intro j hj
    have hne : j ≠ row.id := fun he => hheld (he ▸ hj)
    split
    · exact h.held hj
    · exact Finset.mem_erase.mpr ⟨hne, h.held hj⟩
  · intro job hj r hr hid hp
    obtain ⟨hr, hne⟩ := hpend.mp ⟨hr, hp⟩
    have hmem := h.hand job hj r hr.1 hid hr.2
    split
    · exact hmem
    · exact Finset.mem_erase.mpr ⟨hid ▸ hne, hmem⟩
  · intro s hsm r ha hw
    obtain ⟨ha, hne⟩ := hahead ha
    have hmem : r.id ∈ tok := by
      rcases List.mem_or_eq_of_mem_set hsm with hsm | rfl
      · exact h.ahead s hsm r ha hw
      · exact h.ahead src hsrc r ha hw
    split
    · exact hmem
    · exact Finset.mem_erase.mpr ⟨hne, hmem⟩
  · intro s hsm
    have hle := Finset.card_le_card (hcounted s)
    rcases List.mem_or_eq_of_mem_set hsm with hsm | rfl
    · exact (hle.trans Finset.card_erase_le).trans (h.fits s hsm)
    · have hsame : l.counted (src.spend row.job.asQueued) = l.counted src := rfl
      have hfit := h.fits src hsrc
      have herase := card_erase_counted hrow
      rw [hsame] at hle
      rw [hcounts] at hspend
      omega
  · cases hc : src.counts row.job with
    | true =>
      rw [hc, if_pos rfl] at hout
      rw [if_pos rfl]
      omega
    | false =>
      have hmem := h.mem_of_not_counts hsrc hrow hc
      have hcard := Finset.card_erase_of_mem hmem
      have hpos : 0 < tok.card := Finset.card_pos.mpr ⟨row.id, hmem⟩
      rw [hc, if_neg (by simp)] at hout
      rw [if_neg (by simp)]
      omega

/-- Turns never leave the backlog short. -/
theorem Enough.turn (ht : Turn e l l') (hb : Backed key l) (h : Enough l tok) :
    ∃ tok', Enough l' tok' := by
  cases ht with
  | close _ _ hst => exact ⟨tok, h.close hst⟩
  | retry hheld hopen => exact ⟨tok, h.retry hheld hopen⟩
  | settle _ hheld hclosed => exact ⟨_, h.settle hb hheld hclosed⟩
  | load hs hr ha =>
    obtain ⟨hr, -, hk, hp⟩ := Store.mem_pendingUnder.mp hr
    exact h.load hs ⟨⟨hr, hp⟩, hk, ha⟩
  | finish hs => exact ⟨tok, h.finish hs⟩
  | sweep hs hr hk hp ha hheld => exact h.sweep hs ⟨⟨hr, hp⟩, hk, ha⟩ hheld

/-! ### Hand-offs, sources, restarts and the writes of others -/

theorem Enough.reserve (h : Enough l tok) : Enough (l.reserve job) (insert job.id tok) := by
  refine ⟨h.held.trans (Finset.subset_insert _ _), ?_, ?_, h.fits, h.opened, ?_⟩
  · intro j hj r hr hid hp
    rw [Tally.reserve, Multiset.cons_add, Multiset.mem_cons] at hj
    rcases hj with rfl | hj
    · exact Finset.mem_insert_self _ _
    · exact Finset.mem_insert_of_mem (h.hand j hj r hr hid hp)
  · intro src hs r ha hw
    exact Finset.mem_insert_of_mem (h.ahead src hs r ha hw)
  · have hle := Finset.card_insert_le job.id tok
    have hsum := h.sum
    change ((insert job.id tok).card : Int) + l.outstanding ≤ l.backlog + 1
    omega

/-- A hand-off that writes the queue's key must not slip into what a source of that key counts. -/
theorem Enough.setKey (h : Enough l tok) (hj : job ∈ l.reserved)
    (hkey : ∀ src ∈ l.sources, src.key = key → ∀ r ∈ l.store.rows, r.id = job.id →
      r.pending = true → r.queueKey = key ∨ src.after.covers r.job = true ∨
        src.within r.job = false) : Enough (l.setKey key job) tok := by
  have hrow {r' : Row} (hr' : r' ∈ (l.setKey key job).store.rows) : r' ∈ l.store.rows ∨
      ∃ r ∈ l.store.rows, r.id = job.id ∧ r' = { r with queueKey := key } :=
    (Store.mem_setQueueKey.mp hr').imp_left And.left
  have hhand : ∀ j ∈ (l.setKey key job).reserved + (l.setKey key job).handed,
      j ∈ l.reserved + l.handed := by
    intro j hjm
    rw [Tally.setKey, Multiset.add_cons, Multiset.mem_cons] at hjm
    rcases hjm with rfl | hjm
    · exact Multiset.mem_add.mpr (.inl hj)
    · rcases Multiset.mem_add.mp hjm with hjm | hjm
      · exact Multiset.mem_add.mpr (.inl (Multiset.mem_of_mem_erase hjm))
      · exact Multiset.mem_add.mpr (.inr hjm)
  refine ⟨h.held, ?_, ?_, ?_, ?_, h.sum⟩
  · intro j hjm r' hr' hid hp
    rcases hrow hr' with hr | ⟨r, hr, -, rfl⟩
    · exact h.hand j (hhand j hjm) r' hr hid hp
    · exact h.hand j (hhand j hjm) r hr hid hp
  · intro src hs r' ha hw
    rcases hrow ha.1.1 with hr | ⟨r, hr, hid, rfl⟩
    · exact h.ahead src hs r' ⟨⟨hr, ha.1.2⟩, ha.2⟩ hw
    · have hmem := h.hand job (Multiset.mem_add.mpr (.inl hj)) r hr hid ha.1.2
      rw [← hid] at hmem
      exact hmem
  · intro src hs
    refine (Finset.card_le_card (counted_subset fun r' ha hw => ?_)).trans (h.fits src hs)
    rcases hrow ha.1.1 with hr | ⟨r, hr, hid, rfl⟩
    · exact ⟨r', ⟨⟨hr, ha.1.2⟩, ha.2⟩, hw, rfl⟩
    · have hk : src.key = key := ha.2.1.symm
      rcases hkey src hs hk r hr hid ha.1.2 with hsame | hcov | hout
      · exact ⟨r, ⟨⟨hr, ha.1.2⟩, hsame.trans hk.symm, ha.2.2⟩, hw, rfl⟩
      · exact absurd (hcov.symm.trans ha.2.2) (by simp)
      · exact absurd (hout.symm.trans hw) (by simp)
  · intro i hi hno r' hr' hid
    rcases hrow hr' with hr | ⟨r, hr, -, rfl⟩
    · exact h.opened i hi hno r' hr hid
    · exact h.opened i hi hno r hr hid

theorem Enough.attach (h : Enough l tok) (hfit : (l.counted src).card ≤ src.remaining)
    (hrest : ∀ r, l.Ahead src r → src.within r.job = false → r.id ∈ l.held ∨ l.InHand r.id) :
    Enough (l.attach src) tok := by
  refine ⟨h.held, h.hand, ?_, ?_, h.opened, ?_⟩
  · intro s hs r ha hw
    rcases List.mem_append.mp hs with hs | hs
    · exact h.ahead s hs r ha hw
    · cases List.mem_singleton.mp hs
      rcases hrest r ha hw with hheld | ⟨j, hj, hid⟩
      · exact h.held hheld
      · exact hid ▸ h.hand j hj r ha.1.1 hid.symm ha.1.2
  · intro s hs
    rcases List.mem_append.mp hs with hs | hs
    · exact h.fits s hs
    · cases List.mem_singleton.mp hs
      exact hfit
  · have hsum := h.sum
    have hout : (l.attach src).outstanding = l.outstanding + src.remaining := by
      simp [outstanding, Tally.attach]
    have hb : (l.attach src).backlog = l.backlog + src.reserved := rfl
    have hle : src.remaining ≤ src.reserved := Nat.sub_le _ _
    omega

theorem Enough.drop (h : Enough l tok) : Enough (l.drop job) tok := by
  refine { h with hand := ?_ }
  intro j hj
  rcases Multiset.mem_add.mp hj with hj | hj
  · exact h.hand j (Multiset.mem_add.mpr (.inl hj))
  · exact h.hand j (Multiset.mem_add.mpr (.inr (Multiset.mem_of_mem_erase hj)))

theorem Enough.accept (h : Enough l tok) (hj : job ∈ l.handed)
    (hrow : ∃ r ∈ l.store.rows, r.id = job.id ∧ r.pending = true) : Enough (l.accept job) tok := by
  obtain ⟨r, hr, hid, hp⟩ := hrow
  have hmem := h.hand job (Multiset.mem_add.mpr (.inr hj)) r hr hid hp
  refine ⟨Finset.insert_subset hmem h.held, h.drop.hand, h.ahead, h.fits, ?_, h.sum⟩
  intro i hi hno r' hr' hid'
  rcases Finset.mem_insert.mp hi with rfl | hi
  · have heq : r' = r := Table.eq_of_id hr' hr (hid'.trans hid.symm)
    exact heq ▸ hp
  · exact h.opened i hi hno r' hr' hid'

/-- A row nobody answers for here: not handed over and not ahead of a source. -/
def Foreign (l : Tally) (r : Row) : Prop :=
  (∀ job ∈ l.reserved + l.handed, job.id ≠ r.id) ∧
    ∀ src ∈ l.sources, r.queueKey = src.key → src.after.covers r.job = true

theorem Enough.external {store : Store} (h : Enough l tok) (hb : Backed key l)
    (hrow : ∀ r ∈ l.store.rows, l.Keeps r.id → r ∈ store.rows)
    (hnew : ∀ r ∈ store.rows, r.pending = true → r ∈ l.store.rows ∨ l.Foreign r) :
    Enough (l.external store) tok := by
  have hahead {src : SpillSource} (hs : src ∈ l.sources) {r : Row}
      (ha : (l.external store).Ahead src r) : l.Ahead src r := by
    rcases hnew r ha.1.1 ha.1.2 with hr | hf
    · exact ⟨⟨hr, ha.1.2⟩, ha.2⟩
    · exact absurd ((hf.2 src hs ha.2.1).symm.trans ha.2.2) (by simp)
  refine ⟨h.held, ?_, ?_, ?_, ?_, h.sum⟩
  · intro j hj r hr hid hp
    rcases hnew r hr hp with hr | hf
    · exact h.hand j hj r hr hid hp
    · exact absurd hid.symm (hf.1 j hj)
  · intro src hs r ha hw
    exact h.ahead src hs r (hahead hs ha) hw
  · intro src hs
    refine (Finset.card_le_card (counted_subset fun r ha hw => ?_)).trans (h.fits src hs)
    exact ⟨r, hahead hs ha, hw, rfl⟩
  · intro i hi hno r' hr' hid
    obtain ⟨r, hr, rfl⟩ := hb.held i hi
    have heq : r = r' := Table.eq_of_id (hrow r hr (.inl hi)) hr' hid.symm
    exact heq ▸ h.opened r.id hi hno r hr rfl

/-- Nothing pending has slipped behind a source: what a source has passed is held or handed over,
and so is what is under the queue's own key if no source reads that. -/
def Behind (l : Tally) (key : String) : Prop :=
  ∀ r ∈ l.store.rows, r.pending = true →
    (∀ src ∈ l.sources, r.queueKey = src.key → src.after.covers r.job = true →
      r.id ∈ l.held ∨ l.InHand r.id) ∧
    ((∀ src ∈ l.sources, src.key ≠ key) → r.queueKey = key →
      0 ≤ r.job.createdAt ∧ (r.id ∈ l.held ∨ l.InHand r.id))

theorem Enough.restart (h : Enough l tok) (hbehind : l.Behind key) :
    Enough (l.restart key) tok := by
  have hkept {r : Row} (hr : r ∈ l.store.rows) (hp : r.pending = true)
      (hin : r.id ∈ l.held ∨ l.InHand r.id) : r.id ∈ tok := by
    rcases hin with hheld | ⟨j, hj, hid⟩
    · exact h.held hheld
    · exact hid ▸ h.hand j hj r hr hid.symm hp
  -- A source of the restarted queue is an old one started over, or the one added for its own key.
  have hsrc : ∀ s ∈ (l.restart key).sources, (∃ src ∈ l.sources, s = src.restart) ∨
      (s = { key } ∧ ∀ src ∈ l.sources, src.key ≠ key) := by
    intro s hs
    rw [Tally.restart] at hs
    dsimp only at hs
    split at hs
    · obtain ⟨src, hsrc, rfl⟩ := List.mem_map.mp hs
      exact .inl ⟨src, hsrc, rfl⟩
    · next hany =>
      rcases List.mem_append.mp hs with hs | hs
      · obtain ⟨src, hsrc, rfl⟩ := List.mem_map.mp hs
        exact .inl ⟨src, hsrc, rfl⟩
      · refine .inr ⟨List.mem_singleton.mp hs, fun src hsrc hk => hany ?_⟩
        exact List.any_eq_true.mpr ⟨src.restart, List.mem_map_of_mem hsrc, decide_eq_true hk⟩
  refine ⟨Finset.empty_subset _, h.hand, ?_, ?_, by simp [Tally.restart], ?_⟩
  · intro s hs r ha hw
    obtain ⟨hpass, hown⟩ := hbehind r ha.1.1 ha.1.2
    rcases hsrc s hs with ⟨src, hsm, rfl⟩ | ⟨rfl, hnone⟩
    · cases hc : src.after.covers r.job with
      | true => exact hkept ha.1.1 ha.1.2 (hpass src hsm ha.2.1 hc)
      | false =>
        rw [SpillSource.within_restart, hc, Bool.not_false, Bool.and_true] at hw
        exact h.ahead src hsm r ⟨ha.1, ha.2.1, hc⟩ hw
    · exact hkept ha.1.1 ha.1.2 (hown hnone ha.2.1).2
  · intro s hs
    rcases hsrc s hs with ⟨src, hsm, rfl⟩ | ⟨rfl, hnone⟩
    · refine (Finset.card_le_card (counted_subset fun r ha hw => ?_)).trans (h.fits src hsm)
      rw [SpillSource.within_restart, Bool.and_eq_true, Bool.not_eq_true'] at hw
      exact ⟨r, ⟨ha.1, ha.2.1, hw.2⟩, hw.1, rfl⟩
    · have hempty : (l.restart key).counted { key } = ∅ := by
        refine Finset.eq_empty_of_forall_notMem fun i hi => ?_
        obtain ⟨r, ha, hw, -⟩ := mem_counted.mp hi
        have hpos := ((hbehind r ha.1.1 ha.1.2).2 hnone ha.2.1).1
        rw [SpillSource.within, Bool.and_eq_true, decide_eq_true_iff] at hw
        have hcut : r.job.createdAt < 0 := hw.1
        omega
      simp [hempty]
  · have hout : (l.restart key).outstanding = l.outstanding := by
      have hmap : (l.sources.map SpillSource.restart).map SpillSource.remaining =
          l.sources.map SpillSource.remaining := by
        rw [List.map_map]
        rfl
      rw [outstanding, Tally.restart]
      dsimp only
      split
      · rw [hmap, outstanding]
      · rw [List.map_append, hmap, List.sum_append, outstanding]
        simp [SpillSource.remaining]
    rw [hout]
    exact h.sum

/-- The jobs some source counts fit in what the sources have reserved. -/
theorem card_counted_le {srcs : List SpillSource}
    (h : ∀ src ∈ srcs, (l.counted src).card ≤ src.remaining) :
    ∃ ids : Finset String, (∀ src ∈ srcs, l.counted src ⊆ ids) ∧
      ids.card ≤ (srcs.map SpillSource.remaining).sum := by
  induction srcs with
  | nil => exact ⟨∅, by simp⟩
  | cons src srcs ih =>
    obtain ⟨ids, hsub, hcard⟩ := ih fun s hs => h s (List.mem_cons_of_mem _ hs)
    refine ⟨l.counted src ∪ ids, ?_, ?_⟩
    · intro s hs
      rcases List.mem_cons.mp hs with rfl | hs
      · exact Finset.subset_union_left
      · exact (hsub s hs).trans Finset.subset_union_right
    · have hone := h src List.mem_cons_self
      have hunion := Finset.card_union_le (l.counted src) ids
      rw [List.map_cons, List.sum_cons]
      omega

/-- What the queue owes: jobs held, pending jobs handed over, and jobs on disk. -/
def Owes (l : Tally) (id : String) : Prop :=
  id ∈ l.held ∨ (l.InHand id ∧ ∃ r ∈ l.store.rows, r.id = id ∧ r.pending = true) ∨ l.OnDisk id

theorem Enough.card_le (h : Enough l tok) {owed : Finset String} (howed : ∀ i ∈ owed, l.Owes i) :
    (owed.card : Int) ≤ l.backlog := by
  obtain ⟨ids, hids, hcard⟩ := card_counted_le h.fits
  have hsub : owed ⊆ tok ∪ ids := by
    intro i hi
    rw [Finset.mem_union]
    rcases howed i hi with hh | ⟨⟨j, hj, hid⟩, r, hr, hri, hp⟩ | ⟨src, hs, r, hr, hri, hp, hk, ha⟩
    · exact .inl (h.held hh)
    · exact .inl (hid ▸ h.hand j hj r hr (hri.trans hid.symm) hp)
    · have hah : l.Ahead src r := ⟨⟨hr, hp⟩, hk, ha⟩
      cases hw : src.within r.job with
      | false => exact .inl (hri ▸ h.ahead src hs r hah hw)
      | true => exact .inr (hids src hs (mem_counted.mpr ⟨r, hah, hw, hri⟩))
  have hle := (Finset.card_le_card hsub).trans (Finset.card_union_le tok ids)
  have hsum := h.sum
  have hout : l.outstanding = (l.sources.map SpillSource.remaining).sum := rfl
  omega

instance (l : Tally) (id : String) : Decidable (l.Owes id) := inferInstanceAs (Decidable (_ ∨ _))

instance (l : Tally) (src : SpillSource) (r : Row) : Decidable (l.Ahead src r) :=
  inferInstanceAs (Decidable (_ ∧ _))

instance (l : Tally) (r : Row) : Decidable (l.Foreign r) :=
  have : Decidable (∀ job ∈ l.reserved + l.handed, job.id ≠ r.id) :=
    Multiset.decidableForallMultiset
  inferInstanceAs (Decidable (_ ∧ _))

instance (l : Tally) (key : String) : Decidable (l.Behind key) :=
  inferInstanceAs (Decidable (∀ r ∈ l.store.rows, r.pending = true →
    (∀ src ∈ l.sources, r.queueKey = src.key → src.after.covers r.job = true →
      r.id ∈ l.held ∨ l.InHand r.id) ∧
    ((∀ src ∈ l.sources, src.key ≠ key) → r.queueKey = key →
      0 ≤ r.job.createdAt ∧ (r.id ∈ l.held ∨ l.InHand r.id))))

end Tally

namespace AccountQueue

variable {c : QueueConfig} {q t : AccountQueue} {e : Event} {id : String} {job : Job} {now : Time}

/-- What keeps the backlog from falling short. A hand-off's row is stored before, and its key is not
written into what a source counts; an attached source reserves what it counts, and the rest ahead of
it is held or handed over; a hand-off that is kept finds its row pending; others leave the queue's
rows alone and store none ahead of a source. A panic finds no attempt in flight and nothing pending
behind its source but what is handed over. -/
def solvent (c : QueueConfig) (q : AccountQueue) : Event → Bool
  | .setKey job => decide (∀ src ∈ q.sources, src.key = c.storeKey → ∀ r ∈ q.store.rows,
      r.id = job.id → r.pending = true → r.queueKey = c.storeKey ∨ src.after.covers r.job = true ∨
        src.within r.job = false)
  | .attachSpill key after remaining cutoff =>
    let src : SpillSource := { key, after, reserved := remaining, cutoff }
    decide ((q.tally.counted src).card ≤ remaining ∧ ∀ r ∈ q.store.rows, q.tally.Ahead src r →
      src.within r.job = false → r.id ∈ q.present ∨ q.tally.InHand r.id)
  | .recvCmd now clock => decide (∀ job ∈ q.cmds.head?, q.acceptHandoff c job now clock = true →
      ∃ r ∈ q.store.rows, r.id = job.id ∧ r.pending = true)
  | .external op => q.sound c (.external op) &&
      decide (∀ r ∈ (op.apply c.env q.store).rows, r.pending = true →
        r ∈ q.store.rows ∨ q.tally.Foreign r)
  | .panic _ => decide (q.inFlightJobs = [] ∧ q.tally.Behind c.storeKey)
  | e => q.sound c e

theorem panic_eq (c : QueueConfig) (now : Time) (hstop : q.stopping = false) :
    q.panic c now = reloadAfterPanic c
      { q with
        queue := []
        waiting := []
        inFlight := 0
        maxConc := c.configuredMaxConc
        sweep := none
        log := [] } now := if_neg (by simp [hstop])

/-- A panic that finds no attempt in flight leaves nothing in memory. -/
theorem heldIds_panic (c : QueueConfig) (now : Time) (hstop : q.stopping = false)
    (hfly : q.inFlightJobs = []) : (q.panic c now).heldIds = [] := by
  rw [panic_eq c now hstop]
  have hnone : ({ q with queue := [], waiting := [] } : AccountQueue).heldIds =
      q.inFlightJobs.map Job.id := rfl
  rw [hfly] at hnone
  exact hnone

theorem Orderly.panic (h : Orderly q) (hfly : q.inFlightJobs = []) : Orderly (q.panic c now) := by
  have hheld := heldIds_panic c now h.unstopped hfly
  have hp := panic_eq c now h.unstopped
  have hlog : (q.panic c now).log = [] := by rw [hp]; rfl
  have hpres : (q.panic c now).present = ∅ := by rw [hp]; rfl
  refine ⟨by rw [hp]; exact h.unstopped, fun id => ?_, fun id => ?_⟩
  · have hsum := openIds_count_add_closed (q.panic c now) id
    rw [hheld, List.count_nil] at hsum
    constructor <;> simp only [hheld, hlog, hpres, List.count_nil, List.countP_nil]
    · simp
    · omega
  · constructor <;> simp [hlog, acceptedAs]

theorem tally_panic (h : Orderly q) (hfly : q.inFlightJobs = []) :
    (q.panic c now).tally = q.tally.restart c.storeKey := by
  have hheld := heldIds_panic c now h.unstopped hfly
  have hclosed : (q.panic c now).closedIds = ∅ := by
    refine Finset.eq_empty_of_forall_notMem fun id hid => ?_
    have hsum := openIds_count_add_closed (q.panic c now) id
    rw [hheld, List.count_nil] at hsum
    rw [mem_closedIds] at hid
    omega
  have hp := panic_eq c now h.unstopped
  rw [hp] at hclosed
  rw [hp, tally, hclosed]
  simp only [reloadAfterPanic, sources, AccountQueue.takeSpills, List.append_nil]
  rfl

/-- The backlog of the queue has room for everything it owes. -/
def Solvent (q : AccountQueue) : Prop := ∃ tok, q.tally.Enough tok

theorem solvent_new (store : Store) : Solvent (new c store) := by
  refine ⟨∅, ?_⟩
  constructor <;> simp [tally, new, sources, Tally.outstanding]

theorem sound_of_solvent (h : q.solvent c e = true) (he : e.calm = true) : q.sound c e = true := by
  cases e <;> first | exact h | rfl | exact (Bool.and_eq_true_iff.mp h).1 | cases he

theorem tracked_step_solvent (h : Tracked c q) (hok : q.solvent c e = true)
    (hstep : q.step c e = some t) : Tracked c t := by
  by_cases hc : e.calm = true
  · exact tracked_step h (sound_of_solvent hok hc) hstep
  cases e with
  | panic now =>
    have hspec := step_spec hstep
    simp only [StepSpec] at hspec
    subst hspec
    rw [solvent, decide_eq_true_iff] at hok
    refine ⟨h.orderly.panic hok.1, sweepAhead_step h.ahead hstep, ?_⟩
    rw [tally_panic h.orderly hok.1]
    exact ⟨h.backed.reserved, h.backed.handed, by simp [Tally.restart], by simp [Tally.restart],
      Finset.Subset.refl _⟩
  | stop => cases hok
  | _ => exact absurd rfl hc

theorem enough_step (h : Tracked c q) (hs : Solvent q) (hok : q.solvent c e = true)
    (hstep : q.step c e = some t) : Solvent t := by
  obtain ⟨tok, hs⟩ := hs
  by_cases hin : e.inner = true
  · let P (l : Tally) : Prop := l.Backed c.storeKey ∧ ∃ tok, l.Enough tok
    have hP : P t.tally := (step_turns h.orderly h.ahead hin hstep).keep (P := P)
      ⟨h.backed, tok, hs⟩ fun ht ⟨hb, tok, hen⟩ => ⟨hb.turn ht, hen.turn ht hb⟩
    exact hP.2
  have hout := outer_of_step hin hstep
  change ∃ tok, t.tally.Enough tok
  generalize t.tally = l at hout ⊢
  cases hout with
  | @reserve job => exact ⟨insert job.id tok, hs.reserve⟩
  | setKey hj => exact ⟨tok, hs.setKey hj (of_decide_eq_true hok)⟩
  | attach =>
    obtain ⟨hfit, hrest⟩ := of_decide_eq_true hok
    exact ⟨tok, hs.attach hfit fun r ha hw => hrest r ha.1.1 ha hw⟩
  | external =>
    obtain ⟨hsound, hnew⟩ := Bool.and_eq_true_iff.mp hok
    exact ⟨tok, hs.external h.backed (of_decide_eq_true hsound) (of_decide_eq_true hnew)⟩
  | @accept now clock job rest hq hacc =>
    exact ⟨tok, hs.accept (mem_handed_of_cmds hq)
      (of_decide_eq_true hok job (by rw [hq]; rfl) hacc)⟩
  | drop => exact ⟨tok, hs.drop⟩
  | panic =>
    rw [solvent, decide_eq_true_iff] at hok
    refine ⟨tok, ?_⟩
    rw [tally_panic h.orderly hok.1]
    exact hs.restart hok.2
  | stop => cases hok

end AccountQueue

end Aquifer
