import Aquifer.Storage.QueueIndex
import Aquifer.Dispatch.Routing

/-! The pages of the Pebble store: read to the end they have every pending job of the queue once and
in order, whatever is stale in the index; and what a page deletes. -/
namespace Aquifer

variable {env : Env} {d d' : Disk} {id k : String} {r : Record} {now : Time} {key : Key}

/-! ### One page -/

namespace Disk

variable {after : PageCursor} {before : Int} {limit : Nat} {job : Job}

theorem zero_lt_pos {c : Int} (hid : HexID id) (hc : 0 ≤ c) :
    PageCursor.pos {} < toLex (c, id) := by
  have hfirst : "" < id := by
    obtain ⟨x, xs, hx⟩ := List.length_pos_iff_exists_cons.mp hid.length_pos
    rw [String.lt_iff_toList_lt, hx]
    exact List.nil_lt_cons x xs
  rw [PageCursor.pos, Prod.Lex.toLex_lt_toLex]
  exact hc.lt_or_eq.imp_right fun heq => ⟨heq, hfirst⟩

/-- The range of a page as the cursor and the bound say it. -/
theorem mem_pageRange_own {c : Int} (hid : HexID id) (hc : Ranged c)
    (hafter : Ranged after.createdAt) (hbefore : before < 9223372036854775808) :
    queueIndexKey k c id ∈ d.pageRange k after before ↔ queueIndexKey k c id ∈ d.qk.keys ∧
      after.pos < toLex (c, id) ∧ (0 < before → c < before) := by
  have hleast : ∀ c : Char, '\x00' ≤ c := fun c => Nat.zero_le c.val.toNat
  have hlower : ((if after = {} then queuePrefix k
      else queueIndexKey k after.createdAt after.id ++ ['\x00']) ≤ queueIndexKey k c id) ↔
        after.pos < toLex (c, id) := by
    split_ifs with hzero
    · rw [queueIndexKey_eq, hzero]
      exact iff_of_true (Texts.le_append _ _) (zero_lt_pos hid hc.1)
    · rw [PageCursor.pos, Prod.Lex.toLex_lt_toLex, Texts.append_least_le_iff hleast,
        queueIndexKey_lt_iff hafter hc]
  have hupper : (queueIndexKey k c id < if 0 < before then queueIndexBound k before
      else ['q', 'k', ':'] ++ k.toList ++ ['\x01']) ↔ (0 < before → c < before) := by
    split_ifs with hbound
    · rw [queueIndexKey_lt_bound_iff hc ⟨hbound.le, hbefore⟩]
      exact ⟨fun h _ => h, fun h => h hbound⟩
    · have hown : queuePrefix k <+: queueIndexKey k c id := queuePrefix_queueIndexKey
      exact iff_of_true (queuePrefix_iff_between.mp hown).2 fun h => absurd h hbound
  rw [pageRange, List.mem_filter, decide_eq_true_iff, hlower, hupper]

end Disk

/-! ### The pages of a queue -/

/-- A page as it was read: after which cursor and at which reading of the clock. -/
structure PageRead where
  after : PageCursor
  now : Time
  jobs : List Job

/-- The pages of a queue from a cursor on, one reading of the clock each, until one comes back
short. -/
def Disk.readPages (k : String) (before : Int) (limit : Nat) :
    List Time → Disk → PageCursor → Option (List PageRead)
  | [], _, _ => none
  | now :: nows, d, after =>
    let page := d.queuedPage k after before limit now
    if page.2.length < limit then some [⟨after, now, page.2⟩]
    else (readPages k before limit nows page.1 (Store.cursorAfter page.2 after)).map
      (⟨after, now, page.2⟩ :: ·)

theorem Disk.readPages_first {before : Int} {limit : Nat} {nows : List Time} {after : PageCursor}
    {pages : List PageRead} (h : readPages k before limit nows d after = some pages) :
    ∃ p ∈ pages, p.now ∈ nows := by
  cases nows with
  | nil => cases h
  | cons now nows =>
    rw [readPages] at h
    split_ifs at h
    · cases h
      exact ⟨_, List.mem_cons_self, List.mem_cons_self⟩
    · obtain ⟨rest, -, rfl⟩ := Option.map_eq_some_iff.mp h
      exact ⟨_, List.mem_cons_self, List.mem_cons_self⟩

/-- What a page may return after a cursor. -/
def PageCursor.Next (after : PageCursor) (before : Int) (job : Job) : Prop :=
  after.covers job = false ∧ (0 < before → job.createdAt < before)

/-- The pages have no more than was asked for, jobs of the queue past their cursors, in order, and
each one that has an entry and does not expire on the way. -/
structure ReadExactly (d : Disk) (k : String) (before : Int) (limit : Nat) (after : PageCursor)
    (pages : List PageRead) : Prop where
  sized : ∀ p ∈ pages, p.jobs.length ≤ limit
  sound : ∀ p ∈ pages, ∀ job ∈ p.jobs, d.Queued k p.now job ∧ p.after.Next before job
  past : ∀ job ∈ pages.flatMap PageRead.jobs, after.pos < job.pos
  ordered : (pages.flatMap PageRead.jobs).Pairwise fun x y => x.pos < y.pos
  complete : ∀ job, (∀ p ∈ pages, d.Queued k p.now job) →
    queueIndexKey k job.createdAt job.id ∈ d.qk.keys → after.Next before job →
    job ∈ pages.flatMap PageRead.jobs

/-- The creation times are those that the index keys have in order. -/
structure Pageable (d : Disk) : Prop extends Written d where
  created : ∀ id r, d.jobs.get id = some r → Ranged r.job.createdAt

namespace Pageable

variable {after : PageCursor} {before : Int} {limit : Nat} {job : Job} {nows : List Time}
  {pages : List PageRead}

theorem ranged (h : Pageable d) (hjob : d.Queued k now job) : Ranged job.createdAt := by
  obtain ⟨r, hr, -, -, -, heq⟩ := hjob
  rw [heq]
  exact h.created _ r hr

theorem mem_listed (h : Pageable d) (hafter : Ranged after.createdAt)
    (hbefore : before < 9223372036854775808) :
    job ∈ d.listed k after before now ↔ d.Queued k now job ∧
      queueIndexKey k job.createdAt job.id ∈ d.qk.keys ∧ after.Next before job := by
  have hrange : d.Queued k now job → (queueIndexKey k job.createdAt job.id ∈
      d.pageRange k after before ↔ queueIndexKey k job.createdAt job.id ∈ d.qk.keys ∧
        after.Next before job) := by
    intro hqueued
    obtain ⟨r, hr, -⟩ := id hqueued
    rw [Disk.mem_pageRange_own (h.ids _ r hr).2 (h.ranged hqueued) hafter hbefore, PageCursor.Next,
      PageCursor.not_covers_iff]
    rfl
  constructor
  · intro hjob
    obtain ⟨hkey, hqueued⟩ := h.queued_of_listed hjob
    exact ⟨hqueued, (hrange hqueued).mp hkey⟩
  · rintro ⟨hqueued, hnext⟩
    exact List.mem_filterMap.mpr ⟨_, (hrange hqueued).mpr hnext, hqueued.readEntry⟩

theorem sorted_listed (h : Pageable d) :
    (d.listed k after before now).Pairwise fun x y => x.pos < y.pos := by
  refine h.pairwise_listed.imp_of_mem fun {x y} hx hy hlt => ?_
  obtain ⟨-, hx⟩ := h.queued_of_listed hx
  obtain ⟨-, hy⟩ := h.queued_of_listed hy
  rw [Job.pos, Job.pos, PageCursor.pos, PageCursor.pos, Prod.Lex.toLex_lt_toLex]
  exact (queueIndexKey_lt_iff (h.ranged hx) (h.ranged hy)).mp hlt

/-- One page: the first jobs of the queue past the cursor, as many as are there or asked for. -/
theorem page_spec (h : Pageable d) (k : String) (limit : Nat) (now : Time)
    (hafter : Ranged after.createdAt) (hbefore : before < 9223372036854775808) :
    let page := (d.queuedPage k after before limit now).2
    page.length ≤ limit ∧ (page.Pairwise fun x y => x.pos < y.pos) ∧
    (∀ job ∈ page, d.Queued k now job ∧ after.Next before job) ∧
    ∀ job, d.Queued k now job → queueIndexKey k job.createdAt job.id ∈ d.qk.keys →
      after.Next before job → job ∈ page ∨ page.length = limit ∧ ∀ x ∈ page, x.pos < job.pos := by
  intro page
  have hpage : page = (d.listed k after before now).take limit := h.page_eq
  have hsorted : (d.listed k after before now).Pairwise fun x y => x.pos < y.pos := h.sorted_listed
  rw [hpage]
  refine ⟨List.length_take_le _ _, hsorted.sublist (List.take_sublist _ _), fun job hjob => ?_, ?_⟩
  · obtain ⟨hqueued, -, hnext⟩ := (h.mem_listed hafter hbefore).mp (List.mem_of_mem_take hjob)
    exact ⟨hqueued, hnext⟩
  · intro job hqueued hkey hnext
    exact Page.mem_take_or_past hsorted ((h.mem_listed hafter hbefore).mpr ⟨hqueued, hkey, hnext⟩)

theorem queuedPage (h : Pageable d) (k : String) (after : PageCursor) (before : Int) (limit : Nat)
    (now : Time) : Pageable (d.queuedPage k after before limit now).1 :=
  ⟨h.toWritten.queuedPage k after before limit now, h.created⟩

end Pageable

/-- A page that has come back full ends with a job, which the next cursor stands at. -/
theorem last_of_full {page : List Job} {limit : Nat} (hlimit : 0 < limit)
    (hfull : ¬ page.length < limit) (after : PageCursor) :
    ∃ init last, page = init ++ [last] ∧ Store.cursorAfter page after = cursorAt last := by
  have hne : page ≠ [] := fun hnil => hfull (hnil ▸ hlimit)
  refine ⟨page.dropLast, page.getLast hne, (List.dropLast_append_getLast hne).symm, ?_⟩
  rw [Store.cursorAfter, List.getLast?_eq_some_getLast hne]
  rfl

namespace Pageable

variable {after : PageCursor} {before : Int} {limit : Nat} {nows : List Time}
  {pages : List PageRead}

theorem readPages_exact (h : Pageable d) (hafter : Ranged after.createdAt)
    (hbefore : before < 9223372036854775808) (hlimit : 0 < limit)
    (hread : Disk.readPages k before limit nows d after = some pages) :
    ReadExactly d k before limit after pages := by
  induction nows generalizing d after pages with
  | nil => cases hread
  | cons now nows ih =>
    obtain ⟨hsize, hsorted, hsound, hall⟩ := h.page_spec k limit now hafter hbefore
    have hpast : ∀ job ∈ (d.queuedPage k after before limit now).2, after.pos < job.pos :=
      fun job hjob => (after.not_covers_iff job).mp (hsound job hjob).2.1
    rw [Disk.readPages] at hread
    split_ifs at hread with hshort
    · cases hread
      refine ⟨?_, ?_, ?_, ?_, fun job hqueued hkey hnext => ?_⟩
      · exact List.forall_mem_singleton.mpr hsize
      · exact List.forall_mem_singleton.mpr hsound
      · simpa using hpast
      · simpa using hsorted
      · have hfull := hall job (hqueued _ List.mem_cons_self) hkey hnext
        simpa using hfull.resolve_right fun hfull => hshort.ne hfull.1
    · obtain ⟨rest, hrest, rfl⟩ := Option.map_eq_some_iff.mp hread
      obtain ⟨init, last, hpage, hcursor⟩ := last_of_full hlimit hshort after
      have hlast : last ∈ (d.queuedPage k after before limit now).2 := by simp [hpage]
      have hmost : ∀ job ∈ (d.queuedPage k after before limit now).2, job.pos ≤ last.pos := by
        rw [hpage, List.forall_mem_append, List.forall_mem_singleton]
        rw [hpage, List.pairwise_append] at hsorted
        exact ⟨fun x hx => (hsorted.2.2 x hx last List.mem_cons_self).le, le_rfl⟩
      rw [hcursor] at hrest
      -- the rest is read off the disk the page leaves, after the page's last job
      have hlater : Pageable (d.queuedPage k after before limit now).1 :=
        h.queuedPage k after before limit now
      have hnext := ih hlater (h.ranged (hsound last hlast).1) hrest
      refine ⟨?_, ?_, ?_, ?_, fun job hqueued hkey hjob => ?_⟩
      · exact List.forall_mem_cons.mpr ⟨hsize, hnext.sized⟩
      · exact List.forall_mem_cons.mpr ⟨hsound, hnext.sound⟩
      · rw [List.flatMap_cons, List.forall_mem_append]
        exact ⟨hpast, fun job hjob => (hpast last hlast).trans (hnext.past job hjob)⟩
      · rw [List.flatMap_cons, List.pairwise_append]
        exact ⟨hsorted, hnext.ordered, fun x hx y hy => (hmost x hx).trans_lt (hnext.past y hy)⟩
      · obtain ⟨hnow, hlater⟩ := List.forall_mem_cons.mp hqueued
        rw [List.flatMap_cons, List.mem_append]
        refine (hall job hnow hkey hjob).imp_right fun hfull => ?_
        refine hnext.complete job hlater (Written.entry_kept hnow hkey) ⟨?_, hjob.2⟩
        exact (PageCursor.not_covers_iff _ _).mpr (hfull.2 last hlast)

/-- The records a cursor has not passed. -/
def unread (d : Disk) (after : PageCursor) : List Record :=
  d.records.filter fun r => after.pos < r.job.pos

theorem unread_lt {job : Job} (hjob : d.Queued k now job) (hafter : after.pos < job.pos) :
    (unread d (cursorAt job)).length < (unread d after).length := by
  obtain ⟨r, hr, -, -, -, heq⟩ := hjob
  have hsub : unread d (cursorAt job) = (unread d after).filter fun r => job.pos < r.job.pos := by
    rw [unread, unread, List.filter_filter]
    refine List.filter_congr fun r _ => ?_
    rw [← Bool.decide_and, decide_eq_decide]
    exact ⟨fun hlt => ⟨hlt, hafter.trans hlt⟩, fun hlt => hlt.1⟩
  have hpos : r.job.pos = job.pos := by rw [heq, Job.asQueued_pos]
  rw [hsub, List.length_filter_lt_length_iff_exists]
  refine ⟨r, List.mem_filter.mpr ⟨Families.mem_records.mpr ⟨_, hr⟩, ?_⟩, ?_⟩
  · exact decide_eq_true (hpos ▸ hafter)
  · simp [hpos]

/-- There are no more full pages than records. -/
theorem readPages_ends (h : Pageable d) (hafter : Ranged after.createdAt)
    (hbefore : before < 9223372036854775808) (hlimit : 0 < limit)
    (hroom : (unread d after).length < nows.length) :
    ∃ pages, Disk.readPages k before limit nows d after = some pages := by
  induction nows generalizing d after with
  | nil => exact absurd hroom (Nat.not_lt_zero _)
  | cons now nows ih =>
    rw [Disk.readPages]
    split_ifs with hshort
    · exact ⟨_, rfl⟩
    · obtain ⟨-, -, hsound, -⟩ := h.page_spec k limit now hafter hbefore
      obtain ⟨init, last, hpage, hcursor⟩ := last_of_full hlimit hshort after
      obtain ⟨hqueued, hnext⟩ := hsound last (by simp [hpage])
      have hless := unread_lt hqueued ((after.not_covers_iff last).mp hnext.1)
      have hrest : ∃ rest, Disk.readPages k before limit nows
          (d.queuedPage k after before limit now).1 (cursorAt last) = some rest :=
        ih (h.queuedPage k after before limit now) (h.ranged hqueued)
          (Nat.lt_of_lt_of_le hless (Nat.le_of_lt_succ hroom))
      obtain ⟨rest, hrest⟩ := hrest
      rw [hcursor, hrest]
      exact ⟨_, rfl⟩

end Pageable

namespace PebbleStore

variable {t : PebbleStore} {es : List Event} {opened start : Time} {before : Int} {limit : Nat}
  {nows : List Time}

/-- Where the unexpired pending records under keys without NULs have their entries, the pages of
such a key come to an end. Their jobs are pending jobs of the queue past the cursor and older than
the bound, in order and so each one once; and each such job that does not expire on the way is among
them. -/
theorem pages_read_queue (hdisk : Written d)
    (hrun : Trace.exec (step env) (new d opened) es = some t)
    (hindexed : ∀ id r, t.jobs.get id = some r → r.pending = true → r.live start = true →
      NulFree r.queueKey → queueIndexKey r.queueKey r.job.createdAt id ∈ t.qk.keys)
    (hcreated : ∀ id r, t.jobs.get id = some r → Ranged r.job.createdAt)
    (hk : NulFree k) (hbefore : before < 9223372036854775808) (hlimit : 0 < limit)
    (hnows : ∀ now ∈ nows, start ≤ now) :
    (t.records.length < nows.length →
      ∃ pages, Disk.readPages k before limit nows t.toDisk {} = some pages) ∧
    ∀ pages, Disk.readPages k before limit nows t.toDisk {} = some pages →
      (∀ p ∈ pages, p.jobs.length ≤ limit ∧ ∀ job ∈ p.jobs, t.Queued k p.now job ∧
        p.after.covers job = false ∧ (0 < before → job.createdAt < before)) ∧
      ((pages.flatMap PageRead.jobs).Pairwise fun x y => x.pos < y.pos) ∧
      ∀ job, (∀ p ∈ pages, t.Queued k p.now job) → (0 < before → job.createdAt < before) →
        job ∈ pages.flatMap PageRead.jobs := by
  have h : Pageable t.toDisk := ⟨written_run hdisk hrun, hcreated⟩
  have hzero : Ranged (PageCursor.createdAt {}) := ⟨le_rfl, by decide⟩
  refine ⟨fun hroom => ?_, fun pages hread => ?_⟩
  · refine h.readPages_ends hzero hbefore hlimit (Nat.lt_of_le_of_lt ?_ hroom)
    exact List.length_filter_le _ _
  have hexact := h.readPages_exact hzero hbefore hlimit hread
  refine ⟨fun p hp => ⟨hexact.sized p hp, hexact.sound p hp⟩, hexact.ordered, ?_⟩
  intro job hqueued hbound
  obtain ⟨p, hp, hstart⟩ := Disk.readPages_first hread
  obtain ⟨r, hr, hlive, rfl, hpending, heq⟩ := hqueued p hp
  have hkey := hindexed job.id r hr hpending (Record.live_of_le (hnows _ hstart) hlive) hk
  have hjob : r.job.createdAt = job.createdAt := by rw [heq, Job.asQueued_createdAt]
  rw [hjob] at hkey
  have hepoch : 0 ≤ job.createdAt := hjob ▸ (hcreated _ r hr).1
  refine hexact.complete job hqueued hkey ⟨?_, hbound⟩
  rw [PageCursor.not_covers_iff]
  exact Disk.zero_lt_pos (h.ids _ r hr).2 hepoch

def secondJob : Job := { id := "b", userID := "u", idempotentKey := "l", createdAt := 7 }

/-- The queue of a job that is gone, whose entry is still there, has another. -/
def queuedAgain : List Event :=
  queuedUnder "q|1" ++
    [.clearIdempotentKeys, .checkOrInsert secondJob 2000000, .setQueueKey "b" "q|1"]

/-- Its pages return the other job, once. -/
theorem pages_read_queue_again : ∃ t pages,
    Trace.exec (step plainEnv) (new {} 0) queuedAgain = some t ∧
    t.qk.keys.length = 2 ∧ t.records.length = 1 ∧
    Disk.readPages "q|1" 0 1 [3000000, 4000000] t.toDisk {} = some pages ∧
    pages.map PageRead.jobs = [[secondJob.encoded.asQueued], []] ∧
    ∀ p ∈ pages, p.jobs.length ≤ 1 ∧ ∀ job ∈ p.jobs, t.Queued "q|1" p.now job := by
  have hrun : ∃ t, Trace.exec (step plainEnv) (new {} 0) queuedAgain = some t ∧
      t.qk.keys.length = 2 ∧ t.records.length = 1 ∧
      (∀ e ∈ t.jobs.entries, queueIndexKey e.2.queueKey e.2.job.createdAt e.1 ∈ t.qk.keys) ∧
      (∀ e ∈ t.jobs.entries, Ranged e.2.job.createdAt) ∧
      (Disk.readPages "q|1" 0 1 [3000000, 4000000] t.toDisk {}).map (·.map PageRead.jobs) =
        some [[secondJob.encoded.asQueued], []] := by
    decide +kernel
  obtain ⟨t, ht, hkeys, hone, hindexed, hcreated, hjobs⟩ := hrun
  have hnows : ∀ now ∈ [3000000, 4000000], (0 : Time) ≤ now := by decide
  have hread := pages_read_queue (Written.empty rfl rfl) ht
    (fun id r hr _ _ _ => hindexed (id, r) (KeySpace.get_eq_some_iff.mp hr))
    (fun id r hr => hcreated (id, r) (KeySpace.get_eq_some_iff.mp hr))
    (by decide : NulFree "q|1") (by decide : (0 : Int) < 9223372036854775808) Nat.one_pos hnows
  obtain ⟨pages, hpages⟩ := hread.1 (by rw [hone]; decide)
  rw [hpages, Option.map_some] at hjobs
  refine ⟨t, pages, ht, hkeys, hone, hpages, Option.some.inj hjobs, fun p hp => ?_⟩
  obtain ⟨hsize, hsound⟩ := (hread.2 pages hpages).1 p hp
  exact ⟨hsize, fun job hjob => (hsound job hjob).1⟩

end PebbleStore

/-! ### What a page deletes -/

namespace Disk

/-- A page that does not end early drops every key that leads to no job. -/
theorem mem_scanIndex {keys : List Key} {n : Nat} (hlimit : keys.length < n) (hkey : key ∈ keys)
    (hlong : idOffset k < key.length) (hnone : d.readEntry k now key = none) :
    key ∈ (d.scanIndex k now n keys).2 := by
  induction keys generalizing n with
  | nil => cases hkey
  | cons x keys ih =>
    obtain ⟨n, rfl⟩ := Nat.exists_eq_add_one_of_ne_zero (Nat.ne_of_gt (Nat.zero_lt_of_lt hlimit))
    have hlimit : keys.length < n := Nat.lt_of_succ_lt_succ hlimit
    rw [scanIndex]
    rcases List.mem_cons.mp hkey with rfl | hkey
    · rw [if_neg (Nat.not_le.mpr hlong), hnone]
      exact List.mem_cons_self
    · split
      · exact ih (Nat.lt_succ_of_lt hlimit) hkey
      · split
        · exact ih hlimit hkey
        · exact List.mem_cons_of_mem _ (ih (Nat.lt_succ_of_lt hlimit) hkey)

/-- A page deletes an entry only if it leads to no job. -/
theorem readEntry_of_deleted {after : PageCursor} {before : Int} {limit : Nat}
    (hkey : key ∈ d.qk.keys)
    (hgone : key ∉ (d.queuedPage k after before limit now).1.qk.keys) :
    queuePrefix k <+: key ∧ d.readEntry k now key = none := by
  have hstale : key ∈ (d.scanIndex k now limit (d.pageRange k after before)).2 := by
    by_contra hkept
    exact hgone (KeySpace.mem_keys_delAll.mpr ⟨hkey, hkept⟩)
  obtain ⟨hrange, hnone⟩ := (scanIndex_spec d k now _ limit).2 _ hstale
  exact ⟨(prefix_of_mem_pageRange hrange).2, hnone⟩

/-- A page without end of a queue deletes every entry of a key that goes on with a NUL. -/
theorem page_deletes_foreign {k' : String} {c : Int}
    (hids : ∀ id r, d.jobs.get id = some r → HexID id)
    (hkey : queueIndexKey k' c id ∈ d.qk.keys) (hpast : k.toList ++ ['\x00'] <+: k'.toList) :
    queueIndexKey k' c id ∉ (d.queuedPage k {} 0 (d.qk.keys.length + 1) now).1.qk.keys := by
  obtain ⟨m, heq, hlen⟩ : ∃ m : Key, queueIndexKey k' c id = _ ∧ _ := queueIndexKey_foreign hpast
  have hrange : queueIndexKey k' c id ∈ d.pageRange k {} 0 :=
    mem_pageRange.mpr ⟨hkey, ⟨_, heq.symm⟩, .inl rfl⟩
  have hlong : idOffset k < (queueIndexKey k' c id).length := by
    rw [heq, idOffset, List.length_append, List.length_append, List.length_cons]
    omega
  have hnone : d.readEntry k now (queueIndexKey k' c id) = none := by
    cases hread : d.readEntry k now (queueIndexKey k' c id) with
    | none => rfl
    | some job =>
      obtain ⟨id', r, hcut, hr, -⟩ := readEntry_eq_some hread
      exact absurd (hcut ▸ colon_mem_drop hpast) (hids id' r hr).colon
  have hshort : (d.pageRange k {} 0).length < d.qk.keys.length + 1 :=
    Nat.lt_succ_of_le (List.length_filter_le _ _)
  exact fun hkept => (KeySpace.mem_keys_delAll.mp hkept).2 (mem_scanIndex hshort hrange hlong hnone)

/-- If a page of `k` deletes the entry, it is one of `k` and its job is no unexpired pending job
there. -/
def Spares (d : Disk) (k : String) (now : Time) (k' : String) (c : Int) (id : String)
    (after : PageCursor) (before : Int) (limit : Nat) : Prop :=
  queueIndexKey k' c id ∉ (d.queuedPage k after before limit now).1.qk.keys →
    k' = k ∧ ∀ r, d.jobs.get id = some r →
      ¬ (r.live now = true ∧ r.pending = true ∧ r.queueKey = k')

end Disk

/-- A page deletes an entry only if it was written for the page's own queue, where its job is then
no unexpired pending one, or for a key that goes on after it with a NUL. With ids as `NewID` draws
them, the pages of `k` spare an entry exactly if it is for no such key. -/
theorem Disk.page_spares_other_queues (d : Disk) (k : String) (now : Time)
    {k' id : String} {c : Int}
    (hid : HexID id) (hkey : queueIndexKey k' c id ∈ d.qk.keys) :
    (¬ k.toList ++ ['\x00'] <+: k'.toList →
      ∀ after before limit, d.Spares k now k' c id after before limit) ∧
    ((∀ id r, d.jobs.get id = some r → HexID id) →
      ((∀ after before limit, d.Spares k now k' c id after before limit) ↔
        ¬ k.toList ++ ['\x00'] <+: k'.toList)) := by
  have hspared : ¬ k.toList ++ ['\x00'] <+: k'.toList →
      ∀ after before limit, d.Spares k now k' c id after before limit := by
    intro hpast after before limit hgone
    obtain ⟨hstart, hnone⟩ := readEntry_of_deleted hkey hgone
    obtain rfl : k = k' := (foreign_of_queuePrefix hid hstart).resolve_right hpast
    refine ⟨rfl, fun r hr hlive => ?_⟩
    obtain ⟨hlive, hpending, rfl⟩ := hlive
    rw [readEntry_of_get hr hlive hpending] at hnone
    cases hnone
  refine ⟨hspared, fun hids => ⟨fun hall hpast => ?_, hspared⟩⟩
  obtain ⟨rfl, -⟩ := hall _ _ _ (page_deletes_foreign hids hkey hpast)
  exact absurd hpast.length_le (by simp)

namespace PebbleStore

/-- A page drops the entry of the job that is gone. -/
theorem page_drops_entry_of_gone_job :
    ∃ t, Trace.exec (step plainEnv) (new {} 0) queuedAgain = some t ∧
      queueIndexKey "q|1" 5 "a" ∈ t.qk.keys ∧
      queueIndexKey "q|1" 5 "a" ∉ (t.queuedPage "q|1" {} 0 1 3000000).1.qk.keys ∧
      ∀ r, t.jobs.get "a" = some r →
        ¬ (r.live 3000000 = true ∧ r.pending = true ∧ r.queueKey = "q|1") := by
  have hrun : ∃ t, Trace.exec (step plainEnv) (new {} 0) queuedAgain = some t ∧
      queueIndexKey "q|1" 5 "a" ∈ t.qk.keys ∧
      queueIndexKey "q|1" 5 "a" ∉ (t.queuedPage "q|1" {} 0 1 3000000).1.qk.keys := by
    decide +kernel
  obtain ⟨t, ht, hkey, hgone⟩ := hrun
  have hspared := (Disk.page_spares_other_queues t.toDisk "q|1" 3000000 (by decide : HexID "a")
    hkey).1 (by decide) {} 0 1 hgone
  exact ⟨t, ht, hkey, hgone, hspared.2⟩

def plainRouting : Routing where
  domainKey url := url
  sha256String _ := "0"
  sha256_plain _ := Routing.zero_plain

/-- The job of a request to a pool, and the key it is stored under in a pool with one queue. -/
def poolRequest (pool : String) : Request := { userID := "u", idempotentKey := "k", poolID := pool }

def poolKey (pool : String) : String :=
  plainRouting.storeKeyFor (fun _ => false) (Job.new plainEnv (poolRequest pool) "a" 5000000)

def pooled (pool : String) : List Event :=
  [.checkOrInsert (Job.new plainEnv (poolRequest pool) "a" 5000000) 6000000,
    .setQueueKey "a" (poolKey pool)]

/-- Both pools' names are admitted. Under the first name's key a page takes the entry of the other
pool's queue for a stale one of its own, and the job is not paged again. -/
theorem page_deletes_entry_of_other_pool :
    (poolRequest "a").validate plainEnv = "" ∧
    (poolRequest "a|__shared__\x00b").validate plainEnv = "" ∧
    poolKey "a" ≠ poolKey "a|__shared__\x00b" ∧
    ∃ s, Trace.exec (step plainEnv) (new {} 0) (pooled "a|__shared__\x00b") = some s ∧
      queueIndexKey (poolKey "a|__shared__\x00b") 5 "a" ∈ s.qk.keys ∧
      (s.queuedPage (poolKey "a|__shared__\x00b") {} 0 10 7000000).2.length = 1 ∧
      let t := (s.queuedPage (poolKey "a") {} 0 10 7000000).1
      queueIndexKey (poolKey "a|__shared__\x00b") 5 "a" ∉ t.qk.keys ∧
      (t.queuedPage (poolKey "a|__shared__\x00b") {} 0 10 7000000).2 = [] ∧
      (t.recoverQueued (poolKey "a|__shared__\x00b") 7000000).length = 1 := by
  decide +kernel

end PebbleStore

end Aquifer
