import Aquifer.Storage.Cleanup

/-! The entries of the Pebble store's queue index: what every operation keeps of them, and what a
page reads off them. -/
namespace Aquifer

variable {env : Env} {d d' : Disk} {id k : String} {r : Record} {now clock : Time} {key : Key}

theorem Record.live_of_le (hclock : clock ≤ now) (hlive : r.live now = true) :
    r.live clock = true := by
  have hmilli : unixMilli clock ≤ unixMilli now := Int.ediv_le_ediv (by decide) hclock
  rw [Record.live, decide_eq_true_iff] at hlive ⊢
  exact Int.lt_of_le_of_lt hmilli hlive

namespace Disk

variable {after : PageCursor} {before : Int} {limit : Nat} {job : Job}

/-- Every key a page iterates is one of the queue's. -/
theorem prefix_of_mem_pageRange (h : key ∈ d.pageRange k after before) :
    key ∈ d.qk.keys ∧ queuePrefix k <+: key := by
  obtain ⟨hkey, hrange⟩ := List.mem_filter.mp h
  obtain ⟨hlower, hupper⟩ := of_decide_eq_true hrange
  have hfrom : ∀ tail, queuePrefix k ≤ queuePrefix k ++ tail := Texts.le_append _
  refine ⟨hkey, queuePrefix_iff_between.mpr ⟨?_, ?_⟩⟩
  · refine le_trans ?_ hlower
    split_ifs
    · exact le_rfl
    · rw [queueIndexKey_eq, List.append_assoc]
      exact hfrom _
  · split_ifs at hupper
    · exact hupper.trans (queuePrefix_iff_between.mp ⟨_, rfl⟩).2
    · exact hupper

/-- Without a bound, it is each of the queue's keys past the cursor. -/
theorem mem_pageRange : key ∈ d.pageRange k after 0 ↔ key ∈ d.qk.keys ∧ queuePrefix k <+: key ∧
    (after = {} ∨ queueIndexKey k after.createdAt after.id < key) := by
  have hleast : ∀ c : Char, '\x00' ≤ c := fun c => Nat.zero_le c.val.toNat
  rw [pageRange, List.mem_filter, decide_eq_true_iff, queuePrefix_iff_between]
  refine and_congr_right fun _ => ?_
  simp only [lt_irrefl, if_false]
  by_cases hafter : after = {}
  · simp [hafter]
  · rw [if_neg hafter, Texts.append_least_le_iff hleast]
    constructor
    · rintro ⟨hlt, hupper⟩
      refine ⟨⟨le_trans ?_ hlt.le, hupper⟩, .inr hlt⟩
      rw [queueIndexKey_eq]
      exact Texts.le_append _ _
    · rintro ⟨⟨-, hupper⟩, hlt⟩
      exact ⟨hlt.resolve_left hafter, hupper⟩

theorem sorted_pageRange : (d.pageRange k after before).Pairwise (· < ·) :=
  KeySpace.sorted_keys.filter _

/-- A page is the first jobs its keys lead to, and only keys that lead to none are dropped. -/
theorem scanIndex_spec (d : Disk) (k : String) (now : Time) (keys : List Key) (n : Nat) :
    (d.scanIndex k now n keys).1 = ((keys.filter (idOffset k < ·.length)).filterMap
        (d.readEntry k now)).take n ∧
      ∀ key ∈ (d.scanIndex k now n keys).2, key ∈ keys ∧ d.readEntry k now key = none := by
  induction keys generalizing n with
  | nil => cases n <;> simp [scanIndex]
  | cons key keys ih =>
    have hlater : ∀ {stale : List Key}, (∀ x ∈ stale, x ∈ keys ∧ d.readEntry k now x = none) →
        ∀ x ∈ stale, x ∈ key :: keys ∧ d.readEntry k now x = none := fun h x hx =>
      ⟨List.mem_cons_of_mem key (h x hx).1, (h x hx).2⟩
    cases n with
    | zero => simp [scanIndex]
    | succ n =>
      rw [scanIndex]
      by_cases hshort : key.length ≤ idOffset k
      · obtain ⟨hfound, hstale⟩ := ih (n + 1)
        rw [if_pos hshort, List.filter_cons_of_neg (by simpa using hshort)]
        exact ⟨hfound, hlater hstale⟩
      · rw [if_neg hshort, List.filter_cons_of_pos (by simpa using hshort)]
        cases hread : d.readEntry k now key with
        | none =>
          obtain ⟨hfound, hstale⟩ := ih (n + 1)
          rw [List.filterMap_cons_none hread]
          exact ⟨hfound, List.forall_mem_cons.mpr ⟨⟨List.mem_cons_self, hread⟩, hlater hstale⟩⟩
        | some job =>
          obtain ⟨hfound, hstale⟩ := ih n
          rw [List.filterMap_cons_some hread, List.take_succ_cons]
          exact ⟨congrArg (job :: ·) hfound, hlater hstale⟩

theorem idOffset_lt {c : Int} (hid : HexID id) : idOffset k < (queueIndexKey k c id).length := by
  have := hid.length_pos
  rw [length_queueIndexKey, idOffset]
  omega

theorem readEntry_eq_some (h : d.readEntry k now key = some job) :
    ∃ id r, id.toList = key.drop (idOffset k) ∧ d.jobs.get id = some r ∧ r.live now = true ∧
      r.queueKey = k ∧ r.pending = true ∧ job = r.job.asQueued := by
  unfold readEntry at h
  split at h
  · cases h
  · rename_i r hr
    split_ifs at h with hcond
    cases h
    exact ⟨_, r, String.toList_ofList, hr, hcond.1, hcond.2.1, hcond.2.2, rfl⟩

theorem readEntry_of_get {c : Int} (hr : d.jobs.get id = some r) (hlive : r.live now = true)
    (hpending : r.pending = true) :
    d.readEntry r.queueKey now (queueIndexKey r.queueKey c id) = some r.job.asQueued := by
  rw [readEntry, idOffset, drop_queueIndexKey, String.ofList_toList, hr]
  simp [hlive, hpending]

/-- A pending job of the queue that has not expired, as a page returns it. -/
def Queued (d : Disk) (k : String) (now : Time) (job : Job) : Prop :=
  ∃ r, d.jobs.get job.id = some r ∧ r.live now = true ∧ r.queueKey = k ∧ r.pending = true ∧
    job = r.job.asQueued

/-- The jobs that the keys in the range of a page lead to. -/
def listed (d : Disk) (k : String) (after : PageCursor) (before : Int) (now : Time) : List Job :=
  (d.pageRange k after before).filterMap (d.readEntry k now)

theorem Queued.readEntry (h : d.Queued k now job) :
    d.readEntry k now (queueIndexKey k job.createdAt job.id) = some job := by
  obtain ⟨r, hr, hlive, rfl, hpending, heq⟩ := h
  rw [readEntry_of_get hr hlive hpending, ← heq]

end Disk

/-- As the store's own writes leave it: records under their jobs' ids, which `NewID` drew, and index
entries with the creation time of the job they were written for. -/
structure Written (d : Disk) : Prop where
  ids : ∀ id r, d.jobs.get id = some r → r.job.id = id ∧ HexID id
  entries : ∀ key ∈ d.qk.keys, ∃ k c id, HexID id ∧ key = queueIndexKey k c id ∧
    ∀ r, d.jobs.get id = some r → r.job.createdAt = c

namespace Written

theorem empty (hjobs : d.jobs = {}) (hqk : d.qk = {}) : Written d := by
  refine ⟨fun id r hr => ?_, fun key hkey => ?_⟩
  · rw [hjobs] at hr
    cases hr
  · rw [hqk] at hkey
    cases hkey

/-- Records are rewritten or go; entries go or are written for a stored job. -/
theorem evolve (h : Written d)
    (hjobs : ∀ id r', d'.jobs.get id = some r' → ∃ r, d.jobs.get id = some r ∧
      r'.job.id = r.job.id ∧ r'.job.createdAt = r.job.createdAt)
    (hqk : ∀ key ∈ d'.qk.keys, key ∈ d.qk.keys ∨
      ∃ k id r, d.jobs.get id = some r ∧ key = queueIndexKey k r.job.createdAt id) :
    Written d' := by
  refine ⟨fun id r' hr' => ?_, fun key hkey => ?_⟩
  · obtain ⟨r, hr, hid, -⟩ := hjobs id r' hr'
    exact ⟨hid.trans (h.ids id r hr).1, (h.ids id r hr).2⟩
  · rcases hqk key hkey with hold | ⟨k, id, r, hr, rfl⟩
    · obtain ⟨k, c, id, hid, rfl, hc⟩ := h.entries key hold
      refine ⟨k, c, id, hid, rfl, fun r' hr' => ?_⟩
      obtain ⟨r, hr, -, hcreated⟩ := hjobs id r' hr'
      exact hcreated.trans (hc r hr)
    · refine ⟨k, _, id, (h.ids id r hr).2, rfl, fun r' hr' => ?_⟩
      obtain ⟨r₀, hr₀, -, hcreated⟩ := hjobs id r' hr'
      obtain rfl : r₀ = r := Option.some.inj (hr₀.symm.trans hr)
      exact hcreated

theorem put (h : Written d) (r' : Record) (hr : d.jobs.get id = some r)
    (hid : r'.job.id = r.job.id) (hcreated : r'.job.createdAt = r.job.createdAt)
    (hjobs : d'.jobs = d.jobs.put id r')
    (hqk : ∀ key ∈ d'.qk.keys, key ∈ d.qk.keys ∨
      ∃ k, key = queueIndexKey k r.job.createdAt id) : Written d' := by
  refine h.evolve (fun id' x hx => ?_) fun key hkey => ?_
  · rw [hjobs, KeySpace.get_put] at hx
    split_ifs at hx with heq
    · cases hx
      exact ⟨r, heq ▸ hr, hid, hcreated⟩
    · exact ⟨x, hx, rfl, rfl⟩
  · exact (hqk key hkey).imp_right fun ⟨k, heq⟩ => ⟨k, id, r, hr, heq⟩

theorem insert {job : Job} (h : Written d) (hid : HexID job.id)
    (hindex : ∀ key ∈ d.qk.keys, indexID key ≠ job.id.toList) : Written (d.insert env job now) := by
  refine ⟨fun id r hr => ?_, fun key hkey => ?_⟩
  · rw [Disk.get_jobs_insert] at hr
    split_ifs at hr with heq
    · cases hr
      exact ⟨heq.symm, heq ▸ hid⟩
    · exact h.ids id r hr
  · obtain ⟨k, c, id, hid', rfl, hc⟩ := h.entries key hkey
    refine ⟨k, c, id, hid', rfl, fun r hr => ?_⟩
    rw [Disk.get_jobs_insert, if_neg] at hr
    · exact hc r hr
    · rintro rfl
      exact hindex _ hkey (indexID_queueIndexKey hid')

theorem purge (h : Written d) (gone : List (String × Record)) (exp : KeySpace Key Unit) :
    Written { d.purge env gone with exp := exp } :=
  h.evolve (fun _ r hr => ⟨r, (stays_of_purge hr).2, rfl, rfl⟩)
    fun _ hkey => .inl (mem_qk_purge.mp hkey).1

theorem pendingQueueKeys (h : Written d) (now : Time) : Written (d.pendingQueueKeys now).1 := by
  unfold Disk.pendingQueueKeys
  split_ifs
  · exact h
  · refine h.evolve (fun _ r hr => ⟨r, hr, rfl, rfl⟩) fun key hkey => ?_
    refine (KeySpace.mem_keys_foldl_put.mp hkey).imp_right ?_
    rintro ⟨r, hr, heq⟩
    have hmem := List.mem_of_mem_filter (List.mem_of_mem_filter (List.mem_of_mem_filter hr))
    obtain ⟨id, hget⟩ := Families.mem_records.mp hmem
    exact ⟨r.queueKey, id, r, hget, by rw [heq, (h.ids id r hget).1]⟩

theorem queuedPage (h : Written d) (k : String) (after : PageCursor) (before : Int) (limit : Nat)
    (now : Time) : Written (d.queuedPage k after before limit now).1 :=
  h.evolve (fun _ r hr => ⟨r, hr, rfl, rfl⟩) fun _ hkey => .inl (KeySpace.mem_keys_delAll.mp hkey).1

/-! ### What a page reads -/

variable {after : PageCursor} {before : Int} {limit : Nat} {job : Job}

theorem read (h : Written d) (hkey : key ∈ d.qk.keys) (hstart : queuePrefix k <+: key)
    (hread : d.readEntry k now key = some job) :
    key = queueIndexKey k job.createdAt job.id ∧ d.Queued k now job := by
  obtain ⟨k', c, id, hid, rfl, hc⟩ := h.entries key hkey
  obtain ⟨id', r, hcut, hr, hlive, hk, hpending, rfl⟩ := Disk.readEntry_eq_some hread
  obtain ⟨hown, hid'⟩ := h.ids id' r hr
  obtain ⟨rfl, rfl⟩ := queueIndexKey_cut hid hid' hstart hcut.symm
  subst hown
  exact ⟨by rw [← hc r hr]; rfl, r, hr, hlive, hk, hpending, rfl⟩

theorem queued_of_listed (h : Written d) (hjob : job ∈ d.listed k after before now) :
    queueIndexKey k job.createdAt job.id ∈ d.pageRange k after before ∧ d.Queued k now job := by
  obtain ⟨key, hkey, hread⟩ := List.mem_filterMap.mp hjob
  obtain ⟨hmem, hstart⟩ := Disk.prefix_of_mem_pageRange hkey
  obtain ⟨rfl, hqueued⟩ := h.read hmem hstart hread
  exact ⟨hkey, hqueued⟩

/-- A page is the first of the jobs listed: a key too short to have an id leads to none. -/
theorem page_eq (h : Written d) :
    (d.queuedPage k after before limit now).2 = (d.listed k after before now).take limit := by
  obtain ⟨hfound, -⟩ := Disk.scanIndex_spec d k now (d.pageRange k after before) limit
  refine hfound.trans (congrArg (List.take limit) ?_)
  rw [Disk.listed, List.filterMap_filter]
  refine List.filterMap_congr fun key _ => ?_
  split_ifs with hlong
  · rfl
  · cases hread : d.readEntry k now key with
    | none => rfl
    | some job =>
      obtain ⟨id, r, hid, hr, -⟩ := Disk.readEntry_eq_some hread
      have hshort : key.length ≤ Disk.idOffset k := by simpa using hlong
      rw [List.drop_eq_nil_of_le hshort] at hid
      exact absurd (String.toList_inj.mp (hid.trans String.toList_empty.symm)) (h.ids id r hr).2.1

/-- A page keeps the entries of the jobs it could have returned. -/
theorem entry_kept (hjob : d.Queued k now job)
    (hkey : queueIndexKey k job.createdAt job.id ∈ d.qk.keys) :
    queueIndexKey k job.createdAt job.id ∈ (d.queuedPage k after before limit now).1.qk.keys := by
  refine KeySpace.mem_keys_delAll.mpr ⟨hkey, fun hstale => ?_⟩
  obtain ⟨-, hnone⟩ := (Disk.scanIndex_spec d k now _ limit).2 _ hstale
  rw [hjob.readEntry] at hnone
  cases hnone

theorem pairwise_listed (h : Written d) : (d.listed k after before now).Pairwise fun x y =>
    queueIndexKey k x.createdAt x.id < queueIndexKey k y.createdAt y.id := by
  refine List.pairwise_filterMap.mpr (Disk.sorted_pageRange.imp_of_mem ?_)
  intro key key' hkey hkey' hlt job hjob job' hjob'
  obtain ⟨hmem, hstart⟩ := Disk.prefix_of_mem_pageRange hkey
  obtain ⟨hmem', hstart'⟩ := Disk.prefix_of_mem_pageRange hkey'
  rw [← (h.read hmem hstart hjob).1, ← (h.read hmem' hstart' hjob').1]
  exact hlt

end Written

namespace PebbleStore

variable {s t : PebbleStore} {e : Event}

theorem written_updateStatus {status : Status} (h : Written s.toDisk) :
    Written (s.updateStatus env id status now).toDisk := by
  rcases updateStatus_spec env s id status now with ⟨-, heq⟩ | ⟨r, j, hr, heq⟩
  · rwa [heq]
  · have hwritten : Written
        (s.toDisk.putRecordWithExpiry id (r.withStatus status now) r.expiresAt) :=
      h.put (r.withStatus status now) hr rfl rfl rfl fun _ hkey =>
        .inl (Disk.mem_qk_putRecordWithExpiry.mp hkey).1
    rw [heq]
    exact { hwritten with }

theorem written_new {opened : Time} (h : Written d) : Written (new d opened).toDisk := by
  obtain ⟨_, _, hdisk⟩ := rest_new d opened
  rw [hdisk]
  exact { h with }

theorem written_step (h : Written s.toDisk) (hstep : s.step env e = some t) :
    Written t.toDisk := by
  cases e with
  | checkOrInsert job now =>
    obtain ⟨hguard, ⟨⟩⟩ := Option.ite_none_right_eq_some.mp hstep
    obtain ⟨hid, -, -, hindex⟩ := unused_iff.mp hguard.2
    unfold checkOrInsert
    split
    · exact h
    · rw [toDisk_countStatus]
      exact h.insert hid hindex
  | setQueueKey id k =>
    cases hstep
    show Written (s.toDisk.setQueueKey id k)
    unfold Disk.setQueueKey
    split
    · exact h
    · rename_i r hr
      refine h.put { r with queueKey := k } hr rfl rfl rfl fun key hkey => ?_
      rcases Disk.mem_qk_rekey.mp hkey with ⟨-, heq⟩ | ⟨hold, -⟩
      · exact .inr ⟨k, heq⟩
      · exact .inl hold
  | updateStatus id status now =>
    cases hstep
    exact written_updateStatus h
  | recordRetry id attempts =>
    cases hstep
    show Written (s.toDisk.recordRetry id attempts)
    unfold Disk.recordRetry
    split
    · exact h
    · rename_i r hr
      exact h.put (r.withRetry attempts) hr rfl rfl rfl fun _ hkey => .inl hkey
  | putResult id result =>
    cases hstep
    show Written (s.toDisk.putResult id result)
    unfold Disk.putResult
    split
    · exact h
    · rename_i r hr
      exact h.put { r with result := some result } hr rfl rfl rfl fun _ hkey => .inl hkey
  | deleteJob id =>
    cases hstep
    show Written (s.deleteJob env id).toDisk
    unfold deleteJob
    split
    · exact h
    · rename_i r hr
      rw [toDisk_countStatus]
      exact h.purge [(id, r)] s.exp
  | pendingQueueKeys now =>
    cases hstep
    exact h.pendingQueueKeys now
  | queuedPage k after before limit now =>
    cases hstep
    exact h.queuedPage k after before limit now
  | deleteExpired ms =>
    cases hstep
    obtain ⟨gone, heq, -⟩ := purge_deleteExpired env s ms
    rw [heq]
    exact h.purge gone _
  | clearIdempotentKeys =>
    cases hstep
    refine h.evolve (fun id r hr => ?_) fun _ hkey => .inl hkey
    cases hr
  | setDrainEventsEnabled enabled =>
    cases hstep
    exact h
  | listDrainEvents limit =>
    cases hstep
    exact h
  | acknowledgeDrainEventsThrough sequence =>
    cases hstep
    exact { h with }
  | reopen now =>
    cases hstep
    exact written_new h

theorem written_run {es : List Event} {opened : Time} (hdisk : Written d)
    (hrun : Trace.exec (step env) (new d opened) es = some t) : Written t.toDisk :=
  Trace.exec_always (I := fun s : PebbleStore => Written s.toDisk)
    written_step (written_new hdisk) hrun

end PebbleStore

end Aquifer
