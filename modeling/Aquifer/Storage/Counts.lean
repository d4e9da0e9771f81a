import Aquifer.Storage.Cleanup

/-! The running counts of the Pebble store against the records they stand for. -/
namespace Aquifer

def Record.hasStatus (status : Status) (r : Record) : Bool := r.job.status = status

/-- No pending record has expired. -/
def Disk.pendingLive (d : Disk) (now : Time) : Bool :=
  d.records.all fun r => !r.pending || r.live now

namespace PebbleStore

variable {env : Env} {s : PebbleStore} {id : String} {r r' : Record} {st status : Status}

def counter (s : PebbleStore) : Status → Int
  | .queued => s.queued
  | .inFlight => s.inFlight
  | .completed | .failed => 0

/-- How many records are stored with a status, and how many of them have not expired. -/
def stored (s : PebbleStore) (status : Status) : Nat := s.jobs.tally (·.hasStatus status)

def unexpired (s : PebbleStore) (status : Status) (now : Time) : Nat :=
  s.jobs.tally fun r => r.live now && r.hasStatus status

theorem counter_countStatus (hst : st.pending = true) (delta : Int) :
    (s.countStatus status delta).counter st =
      s.counter st + if status = st then delta else 0 := by
  cases st <;> cases status <;> simp_all [countStatus, counter, Status.pending]

theorem counter_moveStatus (hst : st.pending = true) (old new : Status) :
    (s.moveStatus old new).counter st =
      s.counter st - (if old = st then 1 else 0) + if new = st then 1 else 0 := by
  unfold moveStatus
  by_cases h : old = new
  · subst h
    rw [if_pos rfl]
    omega
  · rw [if_neg h, counter_countStatus hst, counter_countStatus hst]
    split_ifs <;> omega

theorem toNat_hasStatus : ((r.hasStatus st).toNat : Int) = if r.job.status = st then 1 else 0 := by
  by_cases h : r.job.status = st <;> simp [Record.hasStatus, h]

/-- Each count is the number of stored records with its status. -/
def Exact (s : PebbleStore) : Prop := ∀ st, st.pending = true → s.counter st = s.stored st

section Exact

variable {t : PebbleStore}

theorem Exact.rewrite (h : s.Exact) (hr : s.jobs.get id = some r)
    (hjobs : t.jobs = s.jobs.put id r')
    (hmove : ∀ st, st.pending = true → t.counter st = s.counter st -
      (if r.job.status = st then 1 else 0) + if r'.job.status = st then 1 else 0) : t.Exact := by
  intro st hst
  have hold := KeySpace.tally_of_get (·.hasStatus st) hr
  have hnew := KeySpace.tally_put (m := s.jobs) (k := id) (v := r') (·.hasStatus st)
  have hs := h st hst
  rw [stored] at hs
  rw [hmove st hst, stored, hjobs, hnew, hs, hold]
  push_cast
  rw [toNat_hasStatus, toNat_hasStatus]
  omega

theorem Exact.rewrite_same (h : s.Exact) (hr : s.jobs.get id = some r)
    (hjobs : t.jobs = s.jobs.put id r') (hsame : r'.job.status = r.job.status)
    (hcounts : ∀ st, t.counter st = s.counter st) : t.Exact := by
  refine h.rewrite hr hjobs fun st _ => ?_
  rw [hcounts, hsame]
  omega

theorem Exact.remove (h : s.Exact) (hr : s.jobs.get id = some r) (hjobs : t.jobs = s.jobs.del id)
    (hcount : ∀ st, st.pending = true →
      t.counter st = s.counter st + if r.job.status = st then -1 else 0) : t.Exact := by
  intro st hst
  have hold := KeySpace.tally_of_get (·.hasStatus st) hr
  have hs := h st hst
  have hrec : ((r.hasStatus st).toNat : Int) = if r.job.status = st then 1 else 0 := toNat_hasStatus
  rw [stored] at hs
  rw [hcount st hst, stored, hjobs, hs, hold]
  push_cast
  rw [hrec]
  split_ifs <;> omega

theorem Exact.insert (h : s.Exact) (hr : s.jobs.get id = none) (hjobs : t.jobs = s.jobs.put id r')
    (hcount : ∀ st, st.pending = true →
      t.counter st = s.counter st + if r'.job.status = st then 1 else 0) : t.Exact := by
  intro st hst
  have hnew := KeySpace.tally_put (m := s.jobs) (k := id) (v := r') (·.hasStatus st)
  have hs := h st hst
  rw [stored] at hs
  rw [hcount st hst, stored, hjobs, hnew, KeySpace.del_of_get hr, hs]
  push_cast
  rw [toNat_hasStatus]

theorem Exact.dropAll {gone : List (String × Record)} (h : s.Exact)
    (hgone : ∀ x ∈ gone, s.jobs.get x.1 = some x.2) (hnodup : (gone.map Prod.fst).Nodup) :
    (gone.foldl (dropExpired env) s).Exact := by
  induction gone generalizing s with
  | nil => exact h
  | cons x gone ih =>
    rw [List.map_cons, List.nodup_cons] at hnodup
    have hjobs : (s.dropExpired env x).jobs = s.jobs.del x.1 := by
      rw [dropExpired, toDisk_countStatus]
      rfl
    refine ih (s := s.dropExpired env x) ?_ (fun y hy => ?_) hnodup.2
    · refine h.remove (hgone x List.mem_cons_self) hjobs fun st hst => ?_
      rw [dropExpired, counter_countStatus hst]
      cases st <;> rfl
    · have hne : y.1 ≠ x.1 := fun heq => hnodup.1 (heq ▸ List.mem_map_of_mem hy)
      rw [hjobs, KeySpace.get_del, if_neg hne]
      exact hgone y (List.mem_cons_of_mem x hy)

end Exact

/-- No stored job has a second expiry key, by which cleanup would count it twice. -/
structure SingleKeyed (d : Disk) : Prop where
  ids : ∀ id r, d.jobs.get id = some r → r.job.id = id ∧ HexID id
  oneKey : ∀ id r, d.jobs.get id = some r → ∀ key ∈ d.exp.keys, key.drop 21 = id.toList →
    key = expKey r.expiresAt id

namespace SingleKeyed

variable {d d' : Disk}

theorem shrink (h : SingleKeyed d)
    (hjobs : ∀ id r, d'.jobs.get id = some r → d.jobs.get id = some r)
    (hexp : ∀ key ∈ d'.exp.keys, key ∈ d.exp.keys) : SingleKeyed d' :=
  ⟨fun id r hr => h.ids id r (hjobs id r hr),
    fun id r hr key hkey => h.oneKey id r (hjobs id r hr) key (hexp key hkey)⟩

/-- A record is rewritten, and the key of its previous expiry goes if it has another one now. -/
theorem rewrite (h : SingleKeyed d) (hr : d.jobs.get id = some r)
    (hjobs : d'.jobs = d.jobs.put id r') (hid : r'.job.id = r.job.id)
    (hexp : ∀ key ∈ d'.exp.keys, key = expKey r'.expiresAt id ∨
      key ∈ d.exp.keys ∧ (r.expiresAt ≠ r'.expiresAt → key ≠ expKey r.expiresAt id)) :
    SingleKeyed d' := by
  have hget : ∀ id', d'.jobs.get id' = if id' = id then some r' else d.jobs.get id' := fun _ => by
    rw [hjobs, KeySpace.get_put]
  have hids : ∀ id' x, d'.jobs.get id' = some x → x.job.id = id' ∧ HexID id' := by
    intro id' x hx
    rw [hget] at hx
    split_ifs at hx with hne
    · cases hx
      subst hne
      exact hid ▸ h.ids id' r hr
    · exact h.ids id' x hx
  refine ⟨hids, fun id' x hx key hkey hread => ?_⟩
  have hhex := (hids id' x hx).2
  rw [hget] at hx
  split_ifs at hx with hne
  · cases hx
    subst hne
    rcases hexp key hkey with rfl | ⟨hold, hmoved⟩
    · rfl
    · have hwas := h.oneKey id' r hr key hold hread
      by_cases hsame : r.expiresAt = r'.expiresAt
      · rw [hwas, hsame]
      · exact absurd hwas (hmoved hsame)
  · rcases hexp key hkey with rfl | ⟨hold, -⟩
    · exact absurd (expKey_read hhex hread).symm hne
    · exact h.oneKey id' x hx key hold hread

theorem rewrite_same (h : SingleKeyed d) (hr : d.jobs.get id = some r)
    (hjobs : d'.jobs = d.jobs.put id r') (hid : r'.job.id = r.job.id)
    (hsame : r'.expiresAt = r.expiresAt) (hexp : d'.exp = d.exp) : SingleKeyed d' := by
  refine h.rewrite hr hjobs hid fun key hkey => .inr ⟨hexp ▸ hkey, fun hne => ?_⟩
  exact absurd hsame.symm hne

theorem insert {job : Job} {now : Time} (h : SingleKeyed d) (hid : HexID job.id)
    (hexp : ∀ key ∈ d.exp.keys, key.drop 21 ≠ job.id.toList) :
    SingleKeyed (d.insert env job now) := by
  have hids : ∀ id x, (d.insert env job now).jobs.get id = some x →
      x.job.id = id ∧ HexID id := by
    intro id x hx
    rw [Disk.get_jobs_insert] at hx
    split_ifs at hx with hne
    · cases hx
      subst hne
      exact ⟨rfl, hid⟩
    · exact h.ids id x hx
  refine ⟨hids, fun id x hx key hkey hread => ?_⟩
  have hhex := (hids id x hx).2
  rw [Disk.get_jobs_insert] at hx
  rcases KeySpace.mem_keys_put.mp hkey with rfl | hold
  · have hsame := expKey_read hhex hread
    rw [if_pos hsame.symm] at hx
    cases hx
    rw [hsame]
    rfl
  · split_ifs at hx with hne
    · exact absurd (hne ▸ hread) (hexp key hold)
    · exact h.oneKey id x hx key hold hread

theorem backfillExpiryIndex (h : SingleKeyed d) : SingleKeyed d.backfillExpiryIndex := by
  unfold Disk.backfillExpiryIndex
  split_ifs
  · exact h
  · refine ⟨h.ids, fun id r hr key hkey hread => ?_⟩
    rcases KeySpace.mem_keys_foldl_put.mp hkey with hold | ⟨x, hx, rfl⟩
    · exact h.oneKey id r hr key hold hread
    · obtain ⟨id', hx⟩ := Families.mem_records.mp hx
      obtain rfl := expKey_read (h.ids id r hr).2 hread
      obtain rfl : r = x := Option.some.inj (hr.symm.trans ((h.ids id' x hx).1 ▸ hx))
      rfl

end SingleKeyed

/-- The counts are exact and stay so under cleanup. -/
structure Counted (s : PebbleStore) : Prop where
  exact : s.Exact
  keyed : SingleKeyed s.toDisk

namespace Counted

theorem nodup_expired (h : s.Counted) (now : Int) :
    (((s.dueKeys now).filterMap (s.toDisk.expiredAt now)).map Prod.fst).Nodup := by
  have hkeys : (s.dueKeys now).Nodup := KeySpace.nodup_keys.filter _
  rw [List.map_filterMap, List.Nodup, List.pairwise_filterMap]
  refine hkeys.imp_of_mem fun {k k'} hk hk' hne id hid id' hid' heq => hne ?_
  obtain ⟨x, hx, rfl⟩ := Option.map_eq_some_iff.mp hid
  obtain ⟨x', hx', rfl⟩ := Option.map_eq_some_iff.mp hid'
  obtain ⟨-, hread, hr, -⟩ := expiredAt_eq_some hx
  obtain ⟨-, hread', hr', -⟩ := expiredAt_eq_some hx'
  have hown := h.keyed.oneKey _ _ hr k (mem_dueKeys.mp hk).1 hread.symm
  have hown' := h.keyed.oneKey _ _ hr k' (mem_dueKeys.mp hk').1 (heq ▸ hread'.symm)
  rw [hown, hown']

theorem deleteExpired (h : s.Counted) (now : Int) : (s.deleteExpired env now).Counted := by
  obtain ⟨gone, heq, hgone, -, hsub⟩ := deleteExpired_spec env s now
  rw [heq]
  have hdrop : (gone.foldl (dropExpired env) s).Exact := h.exact.dropAll
    (fun x hx => (hgone x hx).1) ((h.nodup_expired now).sublist (hsub.map Prod.fst))
  refine ⟨hdrop, h.keyed.shrink (fun id r hr => ?_) fun key hkey =>
    (KeySpace.mem_keys_keep_key.mp hkey).1⟩
  have hr' : (gone.foldl (dropExpired env) s).jobs.get id = some r := hr
  rw [toDisk_dropAll] at hr'
  exact (stays_of_purge hr').2

end Counted

/-! ### Opening a store -/

theorem counter_seed (hst : st.pending = true) (rs : List Record) :
    (rs.foldl (fun s r => s.countStatus r.job.status 1) s).counter st =
      s.counter st + rs.countP (·.hasStatus st) := by
  induction rs generalizing s with
  | nil => simp
  | cons r rs ih =>
    rw [List.foldl_cons, ih, counter_countStatus hst, List.countP_cons]
    by_cases h : r.job.status = st
    · simp only [Record.hasStatus, h, if_true, decide_true]
      omega
    · simp [Record.hasStatus, h]

theorem counted_new {d : Disk} {now : Time} (h : SingleKeyed d) (hlive : d.pendingLive now = true) :
    (new d now).Counted := by
  refine ⟨fun st hst => ?_, toDisk_new d now ▸ h.backfillExpiryIndex⟩
  have hjobs : (new d now).jobs = d.jobs := by
    obtain ⟨_, _, hdisk⟩ := rest_new d now
    rw [hdisk]
  have hrecords : d.backfillExpiryIndex.records = d.records := by
    rw [← toDisk_new d now, Disk.records, hjobs, Disk.records]
  -- a record left out of the scan is finished, so it has neither status
  have hscan : (d.records.filter (·.live now)).countP (·.hasStatus st) =
      d.records.countP (·.hasStatus st) := by
    rw [List.countP_filter]
    refine List.countP_congr fun r hr => ?_
    have hpending := List.all_eq_true.mp hlive r hr
    simp only [Record.hasStatus, Record.pending, Bool.or_eq_true, Bool.not_eq_true',
      Bool.and_eq_true, decide_eq_true_iff] at hpending ⊢
    refine ⟨And.left, fun heq => ⟨heq, hpending.resolve_left ?_⟩⟩
    simp [heq, hst]
  rw [stored, hjobs, new, seedCounts, counter_seed hst, Disk.liveRecords, hrecords, hscan,
    Disk.records, List.countP_map]
  cases st <;> exact Int.zero_add _

/-- The condition under which the counts stay exact. -/
def countsKept (s : PebbleStore) : Event → Bool
  | .recordRetry id _ => (s.jobs.get id).all fun r => r.job.status = .queued
  | .reopen now => s.pendingLive now
  | _ => true

theorem counter_toDisk (s : PebbleStore) (d : Disk) (st : Status) :
    ({ s with toDisk := d } : PebbleStore).counter st = s.counter st := by
  cases st <;> rfl

theorem counted_updateStatus {status : Status} {now : Time} (h : s.Counted) :
    (s.updateStatus env id status now).Counted := by
  rcases updateStatus_spec env s id status now with ⟨-, heq⟩ | ⟨r, j, hr, heq⟩
  · rwa [heq]
  rw [heq]
  refine ⟨h.exact.rewrite hr rfl fun st hst => ?_, h.keyed.rewrite hr rfl rfl fun key hkey => ?_⟩
  · rw [counter_toDisk, counter_moveStatus hst]
    rfl
  · exact Disk.mem_exp_putRecordWithExpiry.mp hkey

theorem counted_checkOrInsert {job : Job} {now : Time} (h : s.Counted) (hmade : job.made env = true)
    (hid : s.unused job.id = true) : (s.checkOrInsert env job now).1.Counted := by
  unfold checkOrInsert
  split
  · exact h
  obtain ⟨hhex, hnew, hexp, -⟩ := unused_iff.mp hid
  have hqueued : job.status = .queued := by
    simp only [Job.made, Bool.and_eq_true, decide_eq_true_iff] at hmade
    exact hmade.1
  have hjobs : ({ s with toDisk := s.toDisk.insert env job now }.countStatus .queued 1).jobs =
      s.jobs.put job.id (Disk.newRecord job now) := rfl
  refine ⟨h.exact.insert hnew hjobs fun st hst => ?_, ?_⟩
  · rw [counter_countStatus hst, counter_toDisk]
    simp [Disk.newRecord, Job.encoded, hqueued]
  · rw [toDisk_countStatus]
    exact h.keyed.insert hhex hexp

theorem Counted.rewrite_same {d : Disk} {id : String} {r r' : Record} (h : s.Counted)
    (hr : s.jobs.get id = some r) (hjobs : d.jobs = s.jobs.put id r')
    (hstatus : r'.job.status = r.job.status) (hid : r'.job.id = r.job.id)
    (hexpires : r'.expiresAt = r.expiresAt) (hexp : d.exp = s.exp) :
    ({ s with toDisk := d } : PebbleStore).Counted :=
  ⟨h.exact.rewrite_same hr hjobs hstatus (counter_toDisk s d),
    h.keyed.rewrite_same hr hjobs hid hexpires hexp⟩

theorem counted_step {t : PebbleStore} {e : Event} (h : s.Counted) (hok : s.countsKept e = true)
    (hstep : s.step env e = some t) : t.Counted := by
  cases e with
  | checkOrInsert job now =>
    simp only [step] at hstep
    split_ifs at hstep with hguard
    cases hstep
    exact counted_checkOrInsert h hguard.1 hguard.2
  | setQueueKey id queueKey =>
    cases hstep
    unfold Disk.setQueueKey
    split
    · exact h
    · rename_i r hr
      exact h.rewrite_same hr rfl rfl rfl rfl rfl
  | updateStatus id status now =>
    cases hstep
    exact counted_updateStatus h
  | recordRetry id attempts =>
    cases hstep
    unfold Disk.recordRetry
    split
    · exact h
    · rename_i r hr
      have hqueued : r.job.status = .queued := by simpa [countsKept, hr] using hok
      exact h.rewrite_same hr rfl hqueued.symm rfl rfl rfl
  | putResult id result =>
    cases hstep
    unfold Disk.putResult
    split
    · exact h
    · rename_i r hr
      exact h.rewrite_same hr rfl rfl rfl rfl rfl
  | deleteJob id =>
    cases hstep
    unfold deleteJob
    split
    · exact h
    · rename_i r hr
      have hjobs := toDisk_countStatus { s with toDisk := s.toDisk.remove env id r }
        r.job.status (-1)
      refine ⟨h.exact.remove hr (congrArg Disk.jobs hjobs) fun st hst => ?_, ?_⟩
      · rw [counter_countStatus hst, counter_toDisk]
      · rw [hjobs]
        refine h.keyed.shrink (fun id' x hx => ?_) fun key hkey => hkey
        rw [Disk.remove, KeySpace.get_del] at hx
        split_ifs at hx
        exact hx
  | pendingQueueKeys now =>
    cases hstep
    unfold Disk.pendingQueueKeys
    split_ifs
    · exact h
    · exact ⟨h.exact, ⟨h.keyed.ids, h.keyed.oneKey⟩⟩
  | queuedPage queueKey after createdBefore limit now =>
    cases hstep
    exact ⟨h.exact, ⟨h.keyed.ids, h.keyed.oneKey⟩⟩
  | deleteExpired now =>
    cases hstep
    exact h.deleteExpired now
  | clearIdempotentKeys =>
    cases hstep
    refine ⟨fun st _ => by cases st <;> rfl, fun id r hr => ?_, fun id r hr => ?_⟩ <;> cases hr
  | setDrainEventsEnabled enabled =>
    cases hstep
    exact { h with }
  | listDrainEvents limit =>
    cases hstep
    exact h
  | acknowledgeDrainEventsThrough sequence =>
    cases hstep
    exact ⟨h.exact, ⟨h.keyed.ids, h.keyed.oneKey⟩⟩
  | reopen now =>
    cases hstep
    exact counted_new h.keyed hok

/-- What `Counts` stands for: the pending records that have not expired, and the queued ones. -/
def fullScan (s : PebbleStore) (now : Time) : Int × Int :=
  ((s.liveRecords now).countP Record.pending, (s.liveRecords now).countP (·.hasStatus .queued))

theorem unexpired_le_stored (now : Time) : s.unexpired st now ≤ s.stored st :=
  List.countP_mono_left fun _ _ h => (Bool.and_eq_true _ _ ▸ h).2

theorem unexpired_eq_stored {now : Time} (hst : st.pending = true)
    (hlive : s.pendingLive now = true) : s.unexpired st now = s.stored st := by
  refine List.countP_congr fun x hx => ?_
  have hpending := List.all_eq_true.mp hlive x.2 (List.mem_map_of_mem hx)
  simp only [Record.hasStatus, Record.pending, Bool.or_eq_true, Bool.not_eq_true',
    Bool.and_eq_true, decide_eq_true_iff] at hpending ⊢
  refine ⟨And.right, fun heq => ⟨hpending.resolve_left ?_, heq⟩⟩
  simp [heq, hst]

theorem countP_liveRecords (now : Time) :
    (s.liveRecords now).countP (·.hasStatus st) = s.unexpired st now := by
  rw [Disk.liveRecords, Disk.records, List.countP_filter, List.countP_map]
  exact List.countP_congr fun x _ => by simp [and_comm]

theorem countP_pending (rs : List Record) : rs.countP Record.pending =
    rs.countP (·.hasStatus .queued) + rs.countP (·.hasStatus .inFlight) := by
  induction rs with
  | nil => rfl
  | cons r rs ih =>
    rw [List.countP_cons, List.countP_cons, List.countP_cons, ih]
    cases hs : r.job.status <;>
      simp [Record.pending, Record.hasStatus, hs, Status.pending] <;> omega

theorem Counted.counts_eq (h : s.Counted) {now : Time} (hlive : s.pendingLive now = true) :
    s.counts = s.fullScan now := by
  have hqueued : s.queued = s.stored .queued := h.exact .queued rfl
  have hinFlight : s.inFlight = s.stored .inFlight := h.exact .inFlight rfl
  rw [fullScan, countP_pending, countP_liveRecords, countP_liveRecords,
    unexpired_eq_stored rfl hlive, unexpired_eq_stored rfl hlive, counts, hqueued, hinFlight]
  push_cast
  simp

/-- In every run in which only queued records are retried and the store is opened only while no
pending record in it has expired, each count lies between the unexpired records of its status and
all of them, so that `Counts` is a full scan when no expired record waits for cleanup. -/
theorem counts_match_records {d : Disk} {t : PebbleStore} {es : List Event} {opened : Time}
    (hdisk : SingleKeyed d) (hopen : d.pendingLive opened = true)
    (hkept : Trace.Along (step env) (fun s e => s.countsKept e = true) (new d opened) es)
    (hrun : Trace.exec (step env) (new d opened) es = some t) :
    (∀ st, st.pending = true → ∀ now,
      (t.unexpired st now : Int) ≤ t.counter st ∧ t.counter st ≤ t.stored st) ∧
    ∀ now, t.pendingLive now = true → t.counts = t.fullScan now := by
  have h : t.Counted := Trace.exec_invariant counted_step (counted_new hdisk hopen) hkept hrun
  refine ⟨fun st hst now => ?_, fun now hlive => h.counts_eq hlive⟩
  rw [h.exact st hst]
  exact ⟨Int.ofNat_le.mpr (unexpired_le_stored now), le_rfl⟩

/-- A job of the next day. -/
def laterJob : Job := { id := "b", userID := "u", idempotentKey := "l", createdAt := 87300000 }

/-- A job in flight is retried without a new status first. -/
def retriedInFlight : List Event :=
  [.checkOrInsert plainJob 1000000, .updateStatus "a" .inFlight 2000000, .recordRetry "a" 1]

/-- The store is opened again when the first job has expired, and cleanup runs. -/
def expiredAtReopen : List Event :=
  [.checkOrInsert plainJob 1000000, .checkOrInsert laterJob 87300000000000,
    .reopen 87300006000000, .deleteExpired 87300006]

/-- A retry leaves a queued record that no count has and a count of one in flight with no record.
A record that has expired at reopen is not counted, and cleanup then takes another's count. -/
theorem counts_drift :
    (∃ t, Trace.exec (step plainEnv) (new {} 0) retriedInFlight = some t ∧
      t.unexpired .queued 3000000 = 1 ∧ t.counter .queued = 0 ∧
      t.stored .inFlight = 0 ∧ t.counter .inFlight = 1) ∧
    ∃ t, Trace.exec (step plainEnv) (new {} 0) expiredAtReopen = some t ∧
      t.stored .queued = 1 ∧ t.unexpired .queued 87300006000000 = 1 ∧ t.counter .queued = 0 ∧
      t.counts = (0, 0) ∧ t.fullScan 87300006000000 = (1, 1) := by
  decide +kernel

theorem singleKeyed_empty {d : Disk} (hjobs : d.jobs = {}) : SingleKeyed d := by
  constructor <;> intro id r hr <;> rw [hjobs] at hr <;> cases hr

/-- A job is completed, a second one retried and the store opened again: one is pending. -/
theorem counts_match_two_jobs : ∃ t, Trace.exec (step plainEnv) (new {} 0)
    [.checkOrInsert plainJob 1000000, .checkOrInsert laterJob 2000000,
      .updateStatus "a" .completed 3000000, .recordRetry "b" 1, .reopen 4000000] = some t ∧
    t.pendingLive 4000000 = true ∧ t.counts = t.fullScan 4000000 ∧ t.stored .queued = 1 := by
  have hrun : ∃ t, Trace.exec (step plainEnv) (new {} 0)
      [.checkOrInsert plainJob 1000000, .checkOrInsert laterJob 2000000,
        .updateStatus "a" .completed 3000000, .recordRetry "b" 1, .reopen 4000000] = some t ∧
      t.pendingLive 4000000 = true ∧ t.stored .queued = 1 := by decide +kernel
  obtain ⟨t, ht, hlive, hone⟩ := hrun
  have hcounts := counts_match_records (singleKeyed_empty rfl) (by decide) (by decide +kernel) ht
  exact ⟨t, ht, hlive, hcounts.2 4000000 hlive, hone⟩

end PebbleStore

end Aquifer
