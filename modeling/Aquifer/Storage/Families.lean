import Aquifer.Storage.Pebble

/-! The key families of the Pebble store agree: idempotency, expiry and queue-index keys belong to
the records they were written for. -/
namespace Aquifer

variable {env : Env} {d : Disk} {id : String} {r r' : Record}

/-- What the families say about each other. The expiry index is complete once it has been
backfilled; a queue-index entry of a stored job, other than one under the empty key, is that of the
key the job has now. -/
structure Families (env : Env) (d : Disk) : Prop where
  idem : ∀ h id, d.idem.get h = some id ↔ ∃ r, d.jobs.get id = some r ∧ r.hash env = h
  exp : d.expIndexMarker = true → ∀ id r, d.jobs.get id = some r →
    expKey r.expiresAt id ∈ d.exp.keys
  ranged : ∀ id r, d.jobs.get id = some r → Ranged r.expiresAt
  ids : ∀ id r, d.jobs.get id = some r → r.job.id = id ∧ HexID id
  index : ∀ id r, d.jobs.get id = some r → ∀ k c, k ≠ "" → queueIndexKey k c id ∈ d.qk.keys →
    queueIndexKey k c id = queueIndexKey r.queueKey r.job.createdAt id

namespace Families

/-- A record is rewritten and keeps its job's identity: the other records keep their keys. -/
theorem rewrite {d' : Disk} (h : Families env d) (r' : Record) (hr : d.jobs.get id = some r)
    (hhash : r'.hash env = r.hash env) (hid : r'.job.id = r.job.id) (hrange : Ranged r'.expiresAt)
    (hjobs : d'.jobs = d.jobs.put id r') (hidem : d'.idem = d.idem)
    (hmarker : d'.expIndexMarker = d.expIndexMarker)
    (hown : d.expIndexMarker = true → expKey r'.expiresAt id ∈ d'.exp.keys)
    (hexp : ∀ e id', 0 ≤ e → id' ≠ id → expKey e id' ∈ d.exp.keys → expKey e id' ∈ d'.exp.keys)
    (hqk : ∀ k c id', HexID id' → id' ≠ id → queueIndexKey k c id' ∈ d'.qk.keys →
      queueIndexKey k c id' ∈ d.qk.keys)
    (hindex : ∀ k c, k ≠ "" → queueIndexKey k c id ∈ d'.qk.keys →
      queueIndexKey k c id = queueIndexKey r'.queueKey r'.job.createdAt id) :
    Families env d' := by
  have hget : ∀ id', d'.jobs.get id' = if id' = id then some r' else d.jobs.get id' := fun _ => by
    rw [hjobs, KeySpace.get_put]
  -- each family is checked for the rewritten record and, unchanged, for the others
  constructor
  · rw [hidem, hjobs]
    exact KeySpace.Inverse.rewrite h.idem hr hhash
  · intro hm id' x hx
    rw [hmarker] at hm
    rw [hget] at hx
    split_ifs at hx with hne
    · cases hx
      exact hne ▸ hown hm
    · exact hexp _ id' (h.ranged id' x hx).1 hne (h.exp hm id' x hx)
  · intro id' x hx
    rw [hget] at hx
    split_ifs at hx
    · cases hx
      exact hrange
    · exact h.ranged id' x hx
  · intro id' x hx
    rw [hget] at hx
    split_ifs at hx with hne
    · cases hx
      subst hne
      exact hid ▸ h.ids id' r hr
    · exact h.ids id' x hx
  · intro id' x hx k c hk hmem
    rw [hget] at hx
    split_ifs at hx with hne
    · cases hx
      subst hne
      exact hindex k c hk hmem
    · exact h.index id' x hx k c hk (hqk k c id' (h.ids id' x hx).2 hne hmem)

/-- Only the attempts, the status or the result of a record change. -/
theorem putRecord (h : Families env d) (hr : d.jobs.get id = some r)
    (hhash : r'.hash env = r.hash env) (hid : r'.job.id = r.job.id)
    (hexp : r'.expiresAt = r.expiresAt) (hkey : r'.queueKey = r.queueKey)
    (hcreated : r'.job.createdAt = r.job.createdAt) : Families env (d.putRecord id r') := by
  refine h.rewrite r' hr hhash hid (hexp ▸ h.ranged id r hr) rfl rfl rfl (fun hm => ?_)
    (fun _ _ _ _ hmem => hmem) (fun _ _ _ _ _ hmem => hmem) fun k c hk hmem => ?_
  · exact hexp ▸ h.exp hm id r hr
  · exact hkey ▸ hcreated ▸ h.index id r hr k c hk hmem

theorem putRecordWithExpiry (h : Families env d) (hr : d.jobs.get id = some r)
    (hhash : r'.hash env = r.hash env) (hid : r'.job.id = r.job.id)
    (hkey : r'.queueKey = r.queueKey) (hcreated : r'.job.createdAt = r.job.createdAt)
    (hrange : Ranged r'.expiresAt) : Families env (d.putRecordWithExpiry id r' r.expiresAt) := by
  refine h.rewrite r' hr hhash hid hrange rfl rfl rfl (fun _ => ?_) (fun e id' he hne hmem => ?_)
    (fun k c id' _ _ hmem => (Disk.mem_qk_putRecordWithExpiry.mp hmem).1) fun k c hk hmem => ?_
  · exact Disk.mem_exp_putRecordWithExpiry.mpr (.inl rfl)
  · refine Disk.mem_exp_putRecordWithExpiry.mpr (.inr ⟨hmem, fun _ heq => hne ?_⟩)
    exact expKey_inj he (h.ranged id r hr).1 heq
  · have hold := (Disk.mem_qk_putRecordWithExpiry.mp hmem).1
    exact hkey ▸ hcreated ▸ h.index id r hr k c hk hold

theorem setQueueKey (h : Families env d) (id queueKey : String) :
    Families env (d.setQueueKey id queueKey) := by
  unfold Disk.setQueueKey
  split
  · exact h
  rename_i r hr
  have hid := (h.ids id r hr).2
  refine h.rewrite { r with queueKey := queueKey } hr rfl rfl (h.ranged id r hr) rfl rfl rfl
    (fun hm => h.exp hm id r hr) (fun _ _ _ _ hmem => hmem) (fun k c id' hid' hne hmem => ?_)
    fun k c hk hmem => ?_
  · rcases Disk.mem_qk_rekey.mp hmem with ⟨-, heq⟩ | ⟨hold, -⟩
    · exact absurd (queueIndexKey_inj hid' hid heq).2 hne
    · exact hold
  · rcases Disk.mem_qk_rekey.mp hmem with ⟨-, heq⟩ | ⟨hold, hmoved⟩
    · exact heq
    · have heq := h.index id r hr k c hk hold
      have hkey : k = r.queueKey := (queueIndexKey_inj hid hid heq).1
      -- an entry under the old key has been deleted unless the key is the same
      by_cases hsame : r.queueKey = queueKey
      · rw [heq, hsame]
      · exact absurd heq (hmoved ⟨hkey ▸ hk, hsame⟩)

/-- A fresh job, whose id no key of any family has. -/
theorem insert {job : Job} {now : Time} (h : Families env d) (hmade : job.made env = true)
    (hfree : d.idem.get (job.idempotencyHash env) = none) (hnew : d.jobs.get job.id = none)
    (hid : HexID job.id)
    (hindex : ∀ k c, queueIndexKey k c job.id ∉ d.qk.keys)
    (hrange : Ranged (job.pendingExpiresAt now)) : Families env (d.insert env job now) := by
  constructor
  · have hhash : (Disk.newRecord job now).hash env = job.idempotencyHash env :=
      Disk.hash_newRecord hmade
    have hinverse := KeySpace.Inverse.put h.idem hnew (hhash ▸ hfree)
    rw [hhash] at hinverse
    exact hinverse
  · intro hm id r hr
    rw [Disk.get_jobs_insert] at hr
    refine KeySpace.mem_keys_put.mpr ?_
    split_ifs at hr with hne
    · cases hr
      exact .inl (hne ▸ rfl)
    · exact .inr (h.exp hm id r hr)
  · intro id r hr
    rw [Disk.get_jobs_insert] at hr
    split_ifs at hr
    · cases hr
      exact hrange
    · exact h.ranged id r hr
  · intro id r hr
    rw [Disk.get_jobs_insert] at hr
    split_ifs at hr with hne
    · cases hr
      subst hne
      exact ⟨rfl, hid⟩
    · exact h.ids id r hr
  · intro id r hr k c hk hmem
    rw [Disk.get_jobs_insert] at hr
    split_ifs at hr with hne
    · subst hne
      exact absurd hmem (hindex k c)
    · exact h.index id r hr k c hk hmem

/-- Entries of the queue index go, or are added for the key their record has. -/
theorem reindex {qk : KeySpace Key Unit} (h : Families env d)
    (hqk : ∀ key ∈ qk.keys, key ∈ d.qk.keys ∨
      ∃ id r, d.jobs.get id = some r ∧ key = queueIndexKey r.queueKey r.job.createdAt id) :
    Families env { d with qk := qk } := by
  refine { h with index := fun id r hr k c hk hmem => ?_ }
  rcases hqk _ hmem with hold | ⟨id', r', hr', heq⟩
  · exact h.index id r hr k c hk hold
  · obtain ⟨-, rfl⟩ := queueIndexKey_inj (h.ids id r hr).2 (h.ids id' r' hr').2 heq
    obtain rfl : r = r' := Option.some.inj (hr.symm.trans hr')
    exact heq

theorem journal (h : Families env d) (j : Journal) : Families env { d with journal := j } :=
  { h with }

theorem queuedPage (h : Families env d) (queueKey : String) (after : PageCursor)
    (createdBefore : Int) (limit : Nat) (now : Time) :
    Families env (d.queuedPage queueKey after createdBefore limit now).1 :=
  h.reindex fun _ hmem => .inl (KeySpace.mem_keys_delAll.mp hmem).1

theorem mem_records : r ∈ d.records ↔ ∃ id, d.jobs.get id = some r := by
  simp [Disk.records, KeySpace.get_eq_some_iff]

theorem pendingQueueKeys (h : Families env d) (now : Time) :
    Families env (d.pendingQueueKeys now).1 := by
  unfold Disk.pendingQueueKeys
  split_ifs
  · exact h
  · refine { h with index := (h.reindex fun key hmem => ?_).index }
    rcases KeySpace.mem_keys_foldl_put.mp hmem with hold | ⟨r, hr, rfl⟩
    · exact .inl hold
    · have hmem := List.mem_of_mem_filter (List.mem_of_mem_filter (List.mem_of_mem_filter hr))
      obtain ⟨id, hid⟩ := mem_records.mp hmem
      exact .inr ⟨id, r, hid, by rw [(h.ids id r hid).1]⟩

theorem backfillExpiryIndex (h : Families env d) : Families env d.backfillExpiryIndex := by
  unfold Disk.backfillExpiryIndex
  split_ifs
  · exact h
  · refine { h with exp := fun _ id r hr => ?_ }
    refine KeySpace.mem_keys_foldl_put.mpr (.inr ⟨r, mem_records.mpr ⟨id, hr⟩, ?_⟩)
    rw [(h.ids id r hr).1]

end Families

end Aquifer
