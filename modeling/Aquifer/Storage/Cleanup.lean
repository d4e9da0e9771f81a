import Aquifer.Storage.Families
import Aquifer.Lib.Trace

/-! Cleanup of the Pebble store, and what it shares with the other operations: in every run the key
families agree, and cleanup takes exactly what has expired. -/
namespace Aquifer

variable {env : Env} {d : Disk} {id : String} {r r' : Record} {key : Key}

/-- The records of the list deleted one after the other, each with its keys. -/
def Disk.purge (env : Env) (d : Disk) (gone : List (String × Record)) : Disk :=
  gone.foldl (fun d x => d.remove env x.1 x.2) d

section Purge

variable {gone : List (String × Record)}

theorem jobs_purge : (d.purge env gone).jobs = d.jobs.delAll (gone.map Prod.fst) := by
  induction gone generalizing d with
  | nil => rfl
  | cons x gone ih => exact ih

theorem idem_purge :
    (d.purge env gone).idem = d.idem.delAll (gone.map fun x => x.2.hash env) := by
  induction gone generalizing d with
  | nil => rfl
  | cons x gone ih => exact ih

theorem get_jobs_purge : (d.purge env gone).jobs.get id =
    if id ∈ gone.map Prod.fst then none else d.jobs.get id := by
  rw [jobs_purge, KeySpace.get_delAll]

theorem stays_of_purge (h : (d.purge env gone).jobs.get id = some r) :
    id ∉ gone.map Prod.fst ∧ d.jobs.get id = some r := by
  rw [get_jobs_purge] at h
  split_ifs at h with hid
  exact ⟨hid, h⟩

theorem mem_qk_purge : key ∈ (d.purge env gone).qk.keys ↔ key ∈ d.qk.keys ∧
    ∀ x ∈ gone, x.2.queueKey ≠ "" → key ≠ queueIndexKey x.2.queueKey x.2.job.createdAt x.1 := by
  induction gone generalizing d with
  | nil => simp [Disk.purge]
  | cons x gone ih =>
    rw [Disk.purge, List.foldl_cons, ← Disk.purge, ih, Disk.mem_qk_remove, List.forall_mem_cons,
      and_assoc]

theorem rest_purge : (d.purge env gone).exp = d.exp ∧
    (d.purge env gone).expIndexMarker = d.expIndexMarker ∧
    (d.purge env gone).queueIndexMarker = d.queueIndexMarker := by
  induction gone generalizing d with
  | nil => exact ⟨rfl, rfl, rfl⟩
  | cons x gone ih => exact ih

theorem journal_purge : (d.purge env gone).journal = d.journal := by
  induction gone generalizing d with
  | nil => rfl
  | cons x gone ih => exact ih

/-- Deleting stored records, and any expiry keys but those of the records that stay. -/
theorem Families.purge (exp : KeySpace Key Unit) (h : Families env d)
    (hgone : ∀ x ∈ gone, d.jobs.get x.1 = some x.2)
    (hexp : ∀ id r, id ∉ gone.map Prod.fst → d.jobs.get id = some r →
      expKey r.expiresAt id ∈ d.exp.keys → expKey r.expiresAt id ∈ exp.keys) :
    Families env { d.purge env gone with exp := exp } := by
  constructor
  · have hinverse := KeySpace.Inverse.delAll h.idem hgone
    rw [← jobs_purge, ← idem_purge] at hinverse
    exact hinverse
  · intro hm id r hr
    obtain ⟨hid, hr⟩ := stays_of_purge hr
    exact hexp id r hid hr (h.exp (rest_purge.2.1 ▸ hm) id r hr)
  · intro id r hr
    exact h.ranged id r (stays_of_purge hr).2
  · intro id r hr
    exact h.ids id r (stays_of_purge hr).2
  · intro id r hr k c hk hmem
    exact h.index id r (stays_of_purge hr).2 k c hk (mem_qk_purge.mp hmem).1

end Purge

namespace PebbleStore

variable {s : PebbleStore} {now : Int} {batch gone : List (String × Record)} {keys : List Key}

theorem toDisk_dropAll :
    (gone.foldl (dropExpired env) s).toDisk = s.toDisk.purge env gone := by
  induction gone generalizing s with
  | nil => rfl
  | cons x gone ih =>
    rw [List.foldl_cons, ih, dropExpired, toDisk_countStatus]
    rfl

theorem expiredAt_eq_some {x : String × Record} (h : d.expiredAt now key = some x) :
    21 < key.length ∧ x.1.toList = key.drop 21 ∧ d.jobs.get x.1 = some x.2 ∧
      x.2.expiresAt < now := by
  unfold Disk.expiredAt at h
  split_ifs at h with hlen
  split at h
  · cases h
  · rename_i r hr
    split_ifs at h with hexp
    cases h
    exact ⟨Nat.lt_of_not_le hlen, String.toList_ofList, hr, Int.lt_of_not_ge hexp⟩

theorem expiredAt_of_get {x : String × Record} (hlen : 21 < key.length)
    (hid : x.1.toList = key.drop 21) (hr : d.jobs.get x.1 = some x.2) (hexp : x.2.expiresAt < now) :
    d.expiredAt now key = some x := by
  have : String.ofList (key.drop 21) = x.1 := by rw [← hid, String.ofList_toList]
  rw [Disk.expiredAt, if_neg (Nat.not_le_of_lt hlen), this, hr]
  simp [Int.not_le.mpr hexp]

/-- A smaller store leads a key to the same expired record, or to none. -/
theorem expiredAt_purge {x : String × Record} (h : (d.purge env gone).expiredAt now key = some x) :
    d.expiredAt now key = some x := by
  obtain ⟨hlen, hid, hr, hexp⟩ := expiredAt_eq_some h
  exact expiredAt_of_get hlen hid (stays_of_purge hr).2 hexp

theorem filterMap_sublist {α β : Type} {f g : α → Option β} (h : ∀ a b, f a = some b → g a = some b)
    (xs : List α) : (xs.filterMap f).Sublist (xs.filterMap g) := by
  induction xs with
  | nil => exact List.Sublist.slnil
  | cons a xs ih =>
    rw [List.filterMap_cons, List.filterMap_cons]
    cases hf : f a with
    | some b =>
      rw [h a b hf]
      exact ih.cons_cons b
    | none =>
      cases g a with
      | none => exact ih
      | some b => exact ih.cons b

/-- What the loop amounts to: the expired records its keys lead to are dropped, each at most once
for each key, and then the due part of the index goes. -/
structure Expires (env : Env) (now : Int) (s : PebbleStore) (batch : List (String × Record))
    (keys : List Key) (gone : List (String × Record)) : Prop where
  eq : expireLoop env now s batch keys = { gone.foldl (dropExpired env) s with
    exp := s.exp.keep fun key _ => !(key < expKeyBound now) }
  sub : gone.Sublist (batch ++ keys.filterMap (s.toDisk.expiredAt now))
  batch : ∀ x ∈ batch, x ∈ gone
  due : ∀ key ∈ keys, ∀ x, s.toDisk.expiredAt now key = some x → x ∈ gone

theorem exp_dropAll : (gone.foldl (dropExpired env) s).exp = s.exp := by
  rw [toDisk_dropAll]
  exact rest_purge.1

theorem exists_expires (env : Env) (now : Int) (keys : List Key)
    (hbatch : ∀ x ∈ batch, s.jobs.get x.1 = some x.2) :
    ∃ gone, Expires env now s batch keys gone := by
  induction keys generalizing s batch with
  | nil =>
    refine ⟨batch, ?_, by simp, fun _ hx => hx, fun _ hkey => absurd hkey List.not_mem_nil⟩
    rw [expireLoop, exp_dropAll]
  | cons key keys ih =>
    cases hx : s.toDisk.expiredAt now key with
    | none =>
      obtain ⟨gone, heq, hsub, hall, hdue⟩ := ih hbatch
      refine ⟨gone, ?_, ?_, hall, List.forall_mem_cons.mpr ⟨?_, hdue⟩⟩
      · rw [expireLoop, hx, heq]
      · rwa [List.filterMap_cons, hx]
      · exact fun x hkx => absurd (hx.symm.trans hkx) (by simp)
    | some x =>
      have hget := (expiredAt_eq_some hx).2.2.1
      have hbatch' : ∀ y ∈ batch ++ [x], s.jobs.get y.1 = some y.2 := by
        intro y hy
        rcases List.mem_append.mp hy with hy | hy
        · exact hbatch y hy
        · obtain rfl := List.mem_singleton.mp hy
          exact hget
      by_cases hfull : batch.length + 1 = expireBatchSize
      · -- the batch is committed, and the rest of the loop reads the smaller store
        let s' := (batch ++ [x]).foldl (dropExpired env) s
        have hs' : s'.toDisk = s.toDisk.purge env (batch ++ [x]) := toDisk_dropAll
        have hnone : ∀ y ∈ ([] : List (String × Record)), s'.jobs.get y.1 = some y.2 :=
          fun _ hy => absurd hy List.not_mem_nil
        obtain ⟨gone, heq, hsub, -, hdue⟩ := ih hnone
        have hfold : (batch ++ [x] ++ gone).foldl (dropExpired env) s =
            gone.foldl (dropExpired env) s' := List.foldl_append
        refine ⟨batch ++ [x] ++ gone, ?_, ?_, ?_, ?_⟩
        · rw [expireLoop, hx]
          simp only [if_pos hfull]
          rw [heq, hfold, show s'.exp = s.exp from exp_dropAll]
        · rw [List.filterMap_cons, hx, List.append_assoc]
          refine (List.Sublist.refl batch).append ((List.Sublist.refl [x]).append ?_)
          refine hsub.trans (filterMap_sublist (fun k y hy => ?_) keys)
          rw [hs'] at hy
          exact expiredAt_purge hy
        · exact fun y hy => by simp [hy]
        · refine List.forall_mem_cons.mpr ⟨fun y hy => ?_, fun k hk y hy => ?_⟩
          · obtain rfl := Option.some.inj (hx.symm.trans hy)
            simp
          · -- a record met again is in the batch, any other is still there to be met
            obtain ⟨hlen, hid, hr, hexp⟩ := expiredAt_eq_some hy
            by_cases hin : y.1 ∈ (batch ++ [x]).map Prod.fst
            · obtain ⟨z, hz, hzy⟩ := List.mem_map.mp hin
              have hyz : z = y := Prod.ext hzy (Option.some.inj
                ((hbatch' z hz).symm.trans (hzy ▸ hr)))
              exact List.mem_append_left _ (hyz ▸ hz)
            · refine List.mem_append_right _ (hdue k hk y (expiredAt_of_get hlen hid ?_ hexp))
              rw [hs', get_jobs_purge, if_neg hin, hr]
      · obtain ⟨gone, heq, hsub, hall, hdue⟩ := ih hbatch'
        refine ⟨gone, ?_, ?_, fun y hy => hall y (by simp [hy]), ?_⟩
        · rw [expireLoop, hx]
          simp only [if_neg hfull]
          exact heq
        · simpa [List.filterMap_cons, hx] using hsub
        · refine List.forall_mem_cons.mpr ⟨fun y hy => ?_, hdue⟩
          obtain rfl := Option.some.inj (hx.symm.trans hy)
          exact hall x (by simp)

theorem keep_of_no_due (h : d.dueKeys now = []) :
    (d.exp.keep fun key _ => !(key < expKeyBound now)) = d.exp := by
  refine KeySpace.ext_entries (List.filter_eq_self.mpr fun e he => ?_)
  have hnone : ∀ key ∈ d.exp.keys, ¬ key < expKeyBound now := by
    simpa [Disk.dueKeys] using h
  simpa using hnone e.1 (List.mem_map_of_mem he)

theorem mem_dueKeys :
    key ∈ d.dueKeys now ↔ key ∈ d.exp.keys ∧ key < expKeyBound now := by
  simp [Disk.dueKeys]

/-- An expired record's own index key is due and leads to it. -/
theorem expKey_due (h : Families env d) (hm : d.expIndexMarker = true)
    (hnow : now < 9223372036854775808) (hr : d.jobs.get id = some r) (hexp : r.expiresAt < now) :
    expKey r.expiresAt id ∈ d.dueKeys now ∧
      d.expiredAt now (expKey r.expiresAt id) = some (id, r) := by
  have hrange := h.ranged id r hr
  refine ⟨mem_dueKeys.mpr ⟨h.exp hm id r hr, (expKey_lt_iff hrange hnow).mpr hexp⟩, ?_⟩
  refine expiredAt_of_get ?_ (drop_expKey hrange.1).symm hr hexp
  have := (h.ids id r hr).2.length_pos
  rw [length_expKey hrange.1]
  omega

/-- `deleteExpired` drops the expired records that the due keys lead to, and those keys. -/
theorem deleteExpired_spec (env : Env) (s : PebbleStore) (now : Int) :
    ∃ gone : List (String × Record), s.deleteExpired env now =
        { gone.foldl (dropExpired env) s with
          exp := s.exp.keep fun key _ => !(key < expKeyBound now) } ∧
      (∀ x ∈ gone, s.jobs.get x.1 = some x.2 ∧ x.2.expiresAt < now) ∧
      (∀ key ∈ s.dueKeys now, ∀ x, s.toDisk.expiredAt now key = some x → x ∈ gone) ∧
      gone.Sublist ((s.dueKeys now).filterMap (s.toDisk.expiredAt now)) := by
  unfold deleteExpired
  split_ifs with hdue
  · refine ⟨[], ?_, fun _ hx => absurd hx List.not_mem_nil, fun key hkey => ?_, by simp⟩
    · rw [keep_of_no_due hdue]
      rfl
    · rw [hdue] at hkey
      exact absurd hkey List.not_mem_nil
  · have hnone : ∀ x ∈ ([] : List (String × Record)), s.jobs.get x.1 = some x.2 :=
      fun _ hx => absurd hx List.not_mem_nil
    obtain ⟨gone, heq, hsub, -, hall⟩ := exists_expires env now (s.dueKeys now) hnone
    refine ⟨gone, heq, fun x hx => ?_, hall, hsub⟩
    obtain ⟨key, -, hkey⟩ := List.mem_filterMap.mp (hsub.subset hx)
    exact (expiredAt_eq_some hkey).2.2

theorem purge_deleteExpired (env : Env) (s : PebbleStore) (now : Int) :
    ∃ gone : List (String × Record), (s.deleteExpired env now).toDisk =
        { s.toDisk.purge env gone with
          exp := s.exp.keep fun key _ => !(key < expKeyBound now) } ∧
      (∀ x ∈ gone, s.jobs.get x.1 = some x.2 ∧ x.2.expiresAt < now) ∧
      ∀ key ∈ s.dueKeys now, ∀ x, s.toDisk.expiredAt now key = some x → x ∈ gone := by
  obtain ⟨gone, heq, hgone, hall, -⟩ := deleteExpired_spec env s now
  exact ⟨gone, by rw [heq, ← toDisk_dropAll], hgone, hall⟩

/-- Where the expiry index is complete, they are the records whose expiry is before `now`. -/
theorem toDisk_deleteExpired (h : Families env s.toDisk) (hm : s.expIndexMarker = true)
    (hnow : now < 9223372036854775808) :
    ∃ gone : List (String × Record), (s.deleteExpired env now).toDisk =
        { s.toDisk.purge env gone with
          exp := s.exp.keep fun key _ => !(key < expKeyBound now) } ∧
      ∀ x, x ∈ gone ↔ s.jobs.get x.1 = some x.2 ∧ x.2.expiresAt < now := by
  obtain ⟨gone, heq, hgone, hall⟩ := purge_deleteExpired env s now
  refine ⟨gone, heq, fun x => ⟨hgone x, fun ⟨hr, hexp⟩ => ?_⟩⟩
  obtain ⟨hmem, hat⟩ := expKey_due h hm hnow hr hexp
  exact hall _ hmem _ hat

theorem families_deleteExpired (h : Families env s.toDisk) (hm : s.expIndexMarker = true)
    (hnow : now < 9223372036854775808) : Families env (s.deleteExpired env now).toDisk := by
  obtain ⟨gone, heq, hgone⟩ := toDisk_deleteExpired h hm hnow
  rw [heq]
  refine h.purge _ (fun x hx => ((hgone x).mp hx).1) fun id r hid hr hmem => ?_
  refine KeySpace.mem_keys_keep_key.mpr ⟨hmem, ?_⟩
  have hlive : ¬ r.expiresAt < now := fun hexp =>
    hid (List.mem_map_of_mem ((hgone (id, r)).mpr ⟨hr, hexp⟩))
  simpa [expKey_lt_iff (h.ranged id r hr) hnow] using hlive

theorem toDisk_new (d : Disk) (now : Time) : (new d now).toDisk = d.backfillExpiryIndex := by
  have hfold : ∀ (rs : List Record) (s : PebbleStore),
      (rs.foldl (fun s r => s.countStatus r.job.status 1) s).toDisk = s.toDisk := by
    intro rs
    induction rs with
    | nil => exact fun _ => rfl
    | cons r rs ih => exact fun s => (ih _).trans (toDisk_countStatus s _ _)
  exact hfold _ _

/-- Opening a store leaves everything on disk as it is but for the expiry index. -/
theorem rest_new (d : Disk) (now : Time) :
    ∃ exp marker, (new d now).toDisk = { d with exp := exp, expIndexMarker := marker } := by
  rw [toDisk_new, Disk.backfillExpiryIndex]
  split_ifs
  · exact ⟨d.exp, d.expIndexMarker, rfl⟩
  · exact ⟨_, _, rfl⟩

theorem marker_backfill (d : Disk) : d.backfillExpiryIndex.expIndexMarker = true := by
  unfold Disk.backfillExpiryIndex
  split_ifs with h
  · exact h
  · rfl

theorem families_checkOrInsert {job : Job} {now : Time} (h : Families env s.toDisk)
    (hmade : job.made env = true) (hid : s.unused job.id = true)
    (hrange : Ranged (job.pendingExpiresAt now)) :
    Families env (s.checkOrInsert env job now).1.toDisk := by
  unfold checkOrInsert
  split
  · exact h
  · rename_i hfree
    obtain ⟨hid, hnew, -, hqk⟩ := unused_iff.mp hid
    rw [toDisk_countStatus]
    refine h.insert hmade hfree hnew hid (fun k c hmem => ?_) hrange
    exact hqk _ hmem (indexID_queueIndexKey hid)

theorem families_updateStatus {status : Status} {now : Time} (h : Families env s.toDisk)
    (hrange : ∀ r, s.jobs.get id = some r → Ranged (expiresAtFor r.job status now)) :
    Families env (s.updateStatus env id status now).toDisk := by
  rcases updateStatus_spec env s id status now with ⟨-, heq⟩ | ⟨r, j, hr, heq⟩
  · rwa [heq]
  · have hput : Families env
        (s.toDisk.putRecordWithExpiry id (r.withStatus status now) r.expiresAt) :=
      h.putRecordWithExpiry hr rfl rfl rfl rfl (hrange r hr)
    rw [heq]
    exact hput.journal j

/-- Every expiry an operation computes or compares with is an `int64` after the epoch. -/
def expiriesRanged (s : PebbleStore) : Event → Bool
  | .checkOrInsert job now => Ranged (job.pendingExpiresAt now)
  | .updateStatus id status now =>
    (s.jobs.get id).all fun r => Ranged (expiresAtFor r.job status now)
  | .deleteExpired now => now < 9223372036854775808
  | _ => true

theorem families_empty (hjobs : d.jobs = {}) (hidem : d.idem = {}) : Families env d := by
  have hnone : ∀ {id r}, d.jobs.get id ≠ some r := by
    intro id r hr
    rw [hjobs] at hr
    cases hr
  refine ⟨fun hash id => ?_, fun _ _ _ hr => absurd hr hnone, fun _ _ hr => absurd hr hnone,
    fun _ _ hr => absurd hr hnone, fun _ _ hr => absurd hr hnone⟩
  rw [hidem]
  exact ⟨fun h => absurd h (by simp [KeySpace.get]), fun ⟨_, hr, _⟩ => absurd hr hnone⟩

/-- The families of an open store, whose expiry index is complete. -/
def Consistent (env : Env) (s : PebbleStore) : Prop :=
  Families env s.toDisk ∧ s.expIndexMarker = true

theorem consistent_new {now : Time} (h : Families env d) : Consistent env (new d now) := by
  rw [Consistent, toDisk_new]
  exact ⟨h.backfillExpiryIndex, marker_backfill d⟩

theorem marker_updateStatus {status : Status} {now : Time} :
    (s.updateStatus env id status now).expIndexMarker = s.expIndexMarker := by
  rcases updateStatus_spec env s id status now with ⟨-, heq⟩ | ⟨r, j, -, heq⟩ <;> rw [heq]
  rfl

theorem consistent_step {t : PebbleStore} {e : Event} (h : Consistent env s)
    (hrange : s.expiriesRanged e = true) (hstep : s.step env e = some t) : Consistent env t := by
  obtain ⟨h, hm⟩ := h
  cases e with
  | checkOrInsert job now =>
    simp only [step] at hstep
    split_ifs at hstep with hguard
    cases hstep
    refine ⟨families_checkOrInsert h hguard.1 hguard.2 (of_decide_eq_true hrange), ?_⟩
    unfold checkOrInsert
    split <;> exact hm
  | setQueueKey id queueKey =>
    cases hstep
    refine ⟨h.setQueueKey id queueKey, ?_⟩
    unfold Disk.setQueueKey
    split <;> exact hm
  | updateStatus id status now =>
    cases hstep
    refine ⟨families_updateStatus h fun r hr => ?_, marker_updateStatus.trans hm⟩
    simpa [expiriesRanged, hr] using hrange
  | recordRetry id attempts =>
    cases hstep
    unfold Disk.recordRetry
    split
    · exact ⟨h, hm⟩
    · rename_i r hr
      exact ⟨h.putRecord hr rfl rfl rfl rfl rfl, hm⟩
  | putResult id result =>
    cases hstep
    unfold Disk.putResult
    split
    · exact ⟨h, hm⟩
    · rename_i r hr
      exact ⟨h.putRecord hr rfl rfl rfl rfl rfl, hm⟩
  | deleteJob id =>
    cases hstep
    unfold deleteJob
    split
    · exact ⟨h, hm⟩
    · rename_i r hr
      have hgone : ∀ x ∈ [(id, r)], s.jobs.get x.1 = some x.2 := by simpa using hr
      rw [Consistent, toDisk_countStatus]
      refine ⟨h.purge s.exp hgone fun _ _ _ _ hmem => hmem, hm⟩
  | pendingQueueKeys now =>
    cases hstep
    refine ⟨h.pendingQueueKeys now, ?_⟩
    unfold Disk.pendingQueueKeys
    split <;> exact hm
  | queuedPage queueKey after createdBefore limit now =>
    cases hstep
    exact ⟨h.queuedPage queueKey after createdBefore limit now, hm⟩
  | deleteExpired now =>
    cases hstep
    have hnow : now < 9223372036854775808 := of_decide_eq_true hrange
    refine ⟨families_deleteExpired h hm hnow, ?_⟩
    obtain ⟨gone, heq, -⟩ := toDisk_deleteExpired h hm hnow
    rw [heq]
    exact rest_purge.2.1.trans hm
  | clearIdempotentKeys =>
    cases hstep
    exact ⟨families_empty rfl rfl, hm⟩
  | setDrainEventsEnabled enabled =>
    cases hstep
    exact ⟨h, hm⟩
  | listDrainEvents limit =>
    cases hstep
    exact ⟨h, hm⟩
  | acknowledgeDrainEventsThrough sequence =>
    cases hstep
    exact ⟨h.journal _, hm⟩
  | reopen now =>
    cases hstep
    exact consistent_new h

def plainEnv : Env := { hashKey := fun s => s }

def plainJob : Job := { id := "a", userID := "u", idempotentKey := "k", createdAt := 5 }

def oneJobRun : List Event :=
  [.checkOrInsert plainJob 1000000, .setQueueKey "a" "api|q", .recordRetry "a" 1,
    .updateStatus "a" .completed 2000000, .reopen 3000000]

end PebbleStore

end Aquifer
