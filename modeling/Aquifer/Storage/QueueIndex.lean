import Aquifer.Storage.Entries

/-! The queue index of the Pebble store against the records: what `PendingQueueKeys` counts is what
the pages of `QueuedPage` read. -/
namespace Aquifer

variable {env : Env} {d : Disk} {id k : String} {r r' : Record} {now clock : Time} {key : Key}

namespace Disk

variable {after : PageCursor} {before : Int} {limit : Nat}

end Disk

/-- What the records and the queue index say about each other, up to a reading of the clock. Once
the index has its marker, the pending records that have a queue and have not expired are in it. -/
structure Indexed (d : Disk) (clock : Time) : Prop where
  ids : ∀ id r, d.jobs.get id = some r → r.job.id = id ∧ HexID id
  keys : ∀ id r, d.jobs.get id = some r → NulFree r.queueKey
  entries : ∀ key ∈ d.qk.keys, ∃ k c id, NulFree k ∧ HexID id ∧ key = queueIndexKey k c id ∧
    ∀ r, d.jobs.get id = some r → r.job.createdAt = c
  complete : d.queueIndexMarker = true → ∀ id r, d.jobs.get id = some r → r.pending = true →
    r.live clock = true → r.queueKey ≠ "" → queueIndexKey r.queueKey r.job.createdAt id ∈ d.qk.keys

namespace Indexed

variable {after : PageCursor} {before : Int} {limit : Nat}

theorem written (h : Indexed d clock) : Written d := by
  refine ⟨h.ids, fun key hkey => ?_⟩
  obtain ⟨k, c, id, -, hid, rfl, hc⟩ := h.entries key hkey
  exact ⟨k, c, id, hid, rfl, hc⟩

/-- The ids in the index of a queue are those of its pending records. -/
theorem mem_listed (h : Indexed d clock) (hmarker : d.queueIndexMarker = true)
    (hnow : clock ≤ now) (hk : k ≠ "") : id ∈ (d.listed k {} 0 now).map Job.id ↔
      ∃ r, d.jobs.get id = some r ∧ r.live now = true ∧ r.pending = true ∧ r.queueKey = k := by
  rw [List.mem_map]
  constructor
  · rintro ⟨job, hjob, rfl⟩
    obtain ⟨-, r, hr, hlive, hrk, hpending, -⟩ := h.written.queued_of_listed hjob
    exact ⟨r, hr, hlive, hpending, hrk⟩
  · rintro ⟨r, hr, hlive, hpending, rfl⟩
    have hmem := h.complete hmarker id r hr hpending (Record.live_of_le hnow hlive) hk
    have hrange := Disk.mem_pageRange.mpr ⟨hmem, queuePrefix_queueIndexKey, .inl rfl⟩
    exact ⟨r.job.asQueued, List.mem_filterMap.mpr ⟨_, hrange,
      Disk.readEntry_of_get hr hlive hpending⟩, (h.ids id r hr).1⟩

variable {d' : Disk} {clock' : Time}

theorem shrink (h : Indexed d clock) (hclock : clock ≤ clock')
    (hmarker : d'.queueIndexMarker = d.queueIndexMarker)
    (hjobs : ∀ id r, d'.jobs.get id = some r → d.jobs.get id = some r)
    (hqk : ∀ key ∈ d'.qk.keys, key ∈ d.qk.keys)
    (hkept : ∀ id r, d'.jobs.get id = some r → r.pending = true → r.live clock' = true →
      queueIndexKey r.queueKey r.job.createdAt id ∈ d.qk.keys →
      queueIndexKey r.queueKey r.job.createdAt id ∈ d'.qk.keys) : Indexed d' clock' where
  ids id r hr := h.ids id r (hjobs id r hr)
  keys id r hr := h.keys id r (hjobs id r hr)
  entries key hkey := by
    obtain ⟨k, c, id, hk, hid, rfl, hc⟩ := h.entries key (hqk key hkey)
    exact ⟨k, c, id, hk, hid, rfl, fun r hr => hc r (hjobs id r hr)⟩
  complete hm id r hr hpending hlive hne := hkept id r hr hpending hlive
    (h.complete (hmarker ▸ hm) id r (hjobs id r hr) hpending (Record.live_of_le hclock hlive) hne)

theorem later (h : Indexed d clock) (hclock : clock ≤ clock') : Indexed d clock' :=
  h.shrink hclock rfl (fun _ _ hr => hr) (fun _ hmem => hmem) fun _ _ _ _ _ hmem => hmem

/-- A record is rewritten, with its own entry or without. -/
theorem rewrite (h : Indexed d clock) (r' : Record) (hr : d.jobs.get id = some r)
    (hclock : clock ≤ clock') (hid : r'.job.id = r.job.id)
    (hcreated : r'.job.createdAt = r.job.createdAt) (hnul : NulFree r'.queueKey)
    (hjobs : d'.jobs = d.jobs.put id r') (hmarker : d'.queueIndexMarker = d.queueIndexMarker)
    (hqk : ∀ key ∈ d'.qk.keys, key ∈ d.qk.keys ∨
      key = queueIndexKey r'.queueKey r.job.createdAt id)
    (hkept : ∀ k c id', HexID id' → id' ≠ id → queueIndexKey k c id' ∈ d.qk.keys →
      queueIndexKey k c id' ∈ d'.qk.keys)
    (hown : d.queueIndexMarker = true → r'.pending = true → r'.live clock' = true →
      r'.queueKey ≠ "" → queueIndexKey r'.queueKey r.job.createdAt id ∈ d'.qk.keys) :
    Indexed d' clock' := by
  have hget : ∀ id', d'.jobs.get id' = if id' = id then some r' else d.jobs.get id' := fun _ => by
    rw [hjobs, KeySpace.get_put]
  constructor
  · intro id' x hx
    rw [hget] at hx
    split_ifs at hx with hne
    · cases hx
      subst hne
      exact hid ▸ h.ids id' r hr
    · exact h.ids id' x hx
  · intro id' x hx
    rw [hget] at hx
    split_ifs at hx
    · cases hx
      exact hnul
    · exact h.keys id' x hx
  · intro key hkey
    rcases hqk key hkey with hold | rfl
    · obtain ⟨k, c, id', hk, hid', rfl, hc⟩ := h.entries key hold
      refine ⟨k, c, id', hk, hid', rfl, fun x hx => ?_⟩
      rw [hget] at hx
      split_ifs at hx with hne
      · cases hx
        exact hcreated.trans (hc r (hne ▸ hr))
      · exact hc x hx
    · refine ⟨_, _, id, hnul, (h.ids id r hr).2, rfl, fun x hx => ?_⟩
      rw [hget, if_pos rfl] at hx
      cases hx
      exact hcreated
  · intro hm id' x hx hpending hlive hne
    rw [hget] at hx
    rw [hmarker] at hm
    split_ifs at hx with heq
    · cases hx
      subst heq
      exact hcreated ▸ hown hm hpending hlive hne
    · exact hkept _ _ id' (h.ids id' x hx).2 heq
        (h.complete hm id' x hx hpending (Record.live_of_le hclock hlive) hne)

/-- The index is not touched, and the record is pending only if it has been. -/
theorem putRecord (h : Indexed d clock) (hr : d.jobs.get id = some r)
    (hid : r'.job.id = r.job.id) (hcreated : r'.job.createdAt = r.job.createdAt)
    (hexp : r'.expiresAt = r.expiresAt) (hkey : r'.queueKey = r.queueKey)
    (hpending : d.queueIndexMarker = true → r.queueKey ≠ "" → r'.pending = true →
      r.pending = true) : Indexed (d.putRecord id r') clock := by
  refine h.rewrite r' hr le_rfl hid hcreated (hkey ▸ h.keys id r hr) rfl rfl
    (fun _ hmem => .inl hmem) (fun _ _ _ _ _ hmem => hmem) fun hm hp hlive hne => ?_
  rw [hkey] at hne ⊢
  have hlive : r.live clock = true := by rwa [Record.live, ← hexp]
  exact h.complete hm id r hr (hpending hm hne hp) hlive hne

theorem putRecordWithExpiry (h : Indexed d clock) (hclock : clock ≤ now)
    (hr : d.jobs.get id = some r) (hid : r'.job.id = r.job.id)
    (hcreated : r'.job.createdAt = r.job.createdAt) (hkey : r'.queueKey = r.queueKey)
    (hpending : d.queueIndexMarker = true → r.queueKey ≠ "" → r'.pending = true →
      r.pending = true ∧ r.live now = true) :
    Indexed (d.putRecordWithExpiry id r' r.expiresAt) now := by
  refine h.rewrite r' hr hclock hid hcreated (hkey ▸ h.keys id r hr) rfl rfl (fun key hmem => ?_)
    (fun k c id' hid' hne hmem => ?_) fun hm hp _ hne => ?_
  · exact .inl (Disk.mem_qk_putRecordWithExpiry.mp hmem).1
  · refine Disk.mem_qk_putRecordWithExpiry.mpr ⟨hmem, fun _ heq => hne ?_⟩
    exact (queueIndexKey_inj hid' (h.ids id r hr).2 heq).2
  · rw [hkey] at hne ⊢
    obtain ⟨hrp, hlive⟩ := hpending hm hne hp
    have hmem := h.complete hm id r hr hrp (Record.live_of_le hclock hlive) hne
    refine Disk.mem_qk_putRecordWithExpiry.mpr ⟨hmem, fun hfin => ?_⟩
    exact absurd (hfin.2.symm.trans hp) (by simp)

theorem setQueueKey (h : Indexed d clock) (hnul : NulFree k) :
    Indexed (d.setQueueKey id k) clock := by
  unfold Disk.setQueueKey
  split
  · exact h
  rename_i r hr
  refine h.rewrite { r with queueKey := k } hr le_rfl rfl rfl hnul rfl rfl (fun key hmem => ?_)
    (fun k' c id' hid' hne hmem => ?_) fun _ hp _ _ => ?_
  · exact (Disk.mem_qk_rekey.mp hmem).symm.imp And.left And.right
  · refine Disk.mem_qk_rekey.mpr (.inr ⟨hmem, fun _ heq => hne ?_⟩)
    exact (queueIndexKey_inj hid' (h.ids id r hr).2 heq).2
  · exact Disk.mem_qk_rekey.mpr (.inl ⟨hp, rfl⟩)

theorem insert {job : Job} (h : Indexed d clock) (hclock : clock ≤ now) (hid : HexID job.id)
    (hindex : ∀ key ∈ d.qk.keys, indexID key ≠ job.id.toList) :
    Indexed (d.insert env job now) now := by
  have hold : ∀ {id r}, id ≠ job.id → (d.insert env job now).jobs.get id = some r →
      d.jobs.get id = some r := fun hne hr => by rwa [Disk.get_jobs_insert, if_neg hne] at hr
  have hget : (d.insert env job now).jobs.get job.id = some (Disk.newRecord job now) := by
    rw [Disk.get_jobs_insert, if_pos rfl]
  constructor
  · intro id r hr
    by_cases hne : id = job.id
    · subst hne
      obtain rfl := Option.some.inj (hget.symm.trans hr)
      exact ⟨rfl, hid⟩
    · exact h.ids id r (hold hne hr)
  · intro id r hr
    by_cases hne : id = job.id
    · subst hne
      obtain rfl := Option.some.inj (hget.symm.trans hr)
      exact List.not_mem_nil
    · exact h.keys id r (hold hne hr)
  · intro key hkey
    obtain ⟨k, c, id, hk, hid', rfl, hc⟩ := h.entries key hkey
    refine ⟨k, c, id, hk, hid', rfl, fun r hr => ?_⟩
    by_cases hne : id = job.id
    · exact absurd (hne ▸ indexID_queueIndexKey hid') (hindex _ hkey)
    · exact hc r (hold hne hr)
  · intro hm id r hr hpending hlive hk
    by_cases hne : id = job.id
    · subst hne
      obtain rfl := Option.some.inj (hget.symm.trans hr)
      exact absurd rfl hk
    · exact h.complete hm id r (hold hne hr) hpending (Record.live_of_le hclock hlive) hk

/-- A page drops no entry of a job it could have returned. -/
theorem queuedPage (h : Indexed d clock) (hclock : clock ≤ now) (k : String) (after : PageCursor)
    (before : Int) (limit : Nat) : Indexed (d.queuedPage k after before limit now).1 now := by
  refine h.shrink hclock rfl (fun _ _ hr => hr)
    (fun key hmem => (KeySpace.mem_keys_delAll.mp hmem).1) fun id r hr hpending hlive hmem => ?_
  refine KeySpace.mem_keys_delAll.mpr ⟨hmem, fun hstale => ?_⟩
  obtain ⟨hrange, hnone⟩ := (Disk.scanIndex_spec d k now _ limit).2 _ hstale
  have hk := eq_of_queuePrefix (h.keys id r hr) (h.ids id r hr).2
    (Disk.prefix_of_mem_pageRange hrange).2
  subst hk
  exact absurd (hnone.symm.trans (Disk.readEntry_of_get hr hlive hpending)) (by simp)

/-- After `PendingQueueKeys` the index has its marker, and what that says holds. -/
theorem pendingQueueKeys (h : Indexed d clock) (hclock : clock ≤ now) :
    Indexed (d.pendingQueueKeys now).1 now ∧
      (d.pendingQueueKeys now).1.queueIndexMarker = true := by
  unfold Disk.pendingQueueKeys
  split_ifs with hm
  · exact ⟨h.later hclock, hm⟩
  · refine ⟨⟨h.ids, h.keys, fun key hmem => ?_, fun _ id r hr hpending hlive hk => ?_⟩, rfl⟩
    · rcases KeySpace.mem_keys_foldl_put.mp hmem with hold | ⟨r, hr, rfl⟩
      · exact h.entries key hold
      · have hmem := List.mem_of_mem_filter (List.mem_of_mem_filter (List.mem_of_mem_filter hr))
        obtain ⟨id, hget⟩ := Families.mem_records.mp hmem
        obtain ⟨rfl, hid⟩ := h.ids id r hget
        refine ⟨_, _, _, h.keys _ r hget, hid, rfl, fun x hx => ?_⟩
        rw [Option.some.inj (hget.symm.trans hx)]
    · refine KeySpace.mem_keys_foldl_put.mpr (.inr ⟨r, ?_, by rw [(h.ids id r hr).1]⟩)
      have hmem := Families.mem_records.mpr ⟨id, hr⟩
      exact List.mem_filter.mpr ⟨List.mem_filter.mpr ⟨List.mem_filter.mpr ⟨hmem, hlive⟩, hpending⟩,
        by simpa using hk⟩

theorem purge {gone : List (String × Record)} (exp : KeySpace Key Unit) (h : Indexed d clock)
    (hgone : ∀ x ∈ gone, d.jobs.get x.1 = some x.2) :
    Indexed { d.purge env gone with exp := exp } clock := by
  refine h.shrink le_rfl rest_purge.2.2 (fun id r hr => (stays_of_purge hr).2)
    (fun key hmem => (mem_qk_purge.mp hmem).1) fun id r hr _ _ hmem => ?_
  obtain ⟨hid, hr⟩ := stays_of_purge hr
  refine mem_qk_purge.mpr ⟨hmem, fun x hx _ heq => hid ?_⟩
  obtain ⟨-, rfl⟩ := queueIndexKey_inj (h.ids id r hr).2 (h.ids x.1 x.2 (hgone x hx)).2 heq
  exact List.mem_map_of_mem hx

end Indexed

namespace PebbleStore

variable {s t : PebbleStore}

/-- The reading of the clock an operation makes for the jobs it looks at. -/
def Event.reading : Event → Option Time
  | .checkOrInsert _ now | .updateStatus _ _ now | .pendingQueueKeys now
  | .queuedPage _ _ _ _ now | .reopen now => some now
  | _ => none

end PebbleStore

/-! ### The same on SQLite -/

namespace Store

variable {st : Store} {limit : Nat}

end Store

namespace PebbleStore

variable {t : PebbleStore}

def queuedUnder (k : String) : List Event :=
  [.checkOrInsert plainJob 1000000, .setQueueKey "a" k, .pendingQueueKeys 2000000]

end PebbleStore

end Aquifer
