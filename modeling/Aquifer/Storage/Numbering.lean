import Aquifer.Storage.Cleanup

/-! The numbers of drain events: which operations of the Pebble store touch the journal, and that a
number stands for one event for as long as the counter is kept. -/
namespace Aquifer

namespace Journal

/-- The `batch_id` a listing is delivered under. -/
def batchID (events : List DrainEvent) : Option String :=
  match events.head?, events.getLast? with
  | some first, some last => some (toString first.sequence ++ "-" ++ toString last.sequence)
  | _, _ => none

theorem toList_toString {n : Int} (h : 0 < n) :
    (toString n).toList = Nat.toDigits 10 n.toNat := by
  rw [Int.toString_eq_repr, Int.repr_eq_if, if_pos h.le, Nat.repr_eq_ofList_toDigits,
    String.toList_ofList]

theorem sign_notMem_toString {n : Int} (h : 0 < n) : '-' ∉ (toString n).toList := by
  rw [toList_toString h]
  intro hmem
  exact absurd (Nat.isDigit_of_mem_toDigits (by decide) (by decide) hmem) (by decide)

theorem eq_of_toString {m n : Int} (hm : 0 < m) (hn : 0 < n)
    (h : (toString m).toList = (toString n).toList) : m = n := by
  rw [toList_toString hm, toList_toString hn] at h
  have hnum := congrArg (fun ds => Nat.ofDigitChars 10 ds 0) h
  have : m.toNat = n.toNat := by simpa using hnum
  omega

/-- The numbers are read off the text again. -/
theorem batchID_inj {b c : List DrainEvent} {id : String} (hb : ∀ e ∈ b, 0 < e.sequence)
    (hc : ∀ e ∈ c, 0 < e.sequence) (hid : batchID b = some id) (hid' : batchID c = some id) :
    ∃ first last first' last', b.head? = some first ∧ b.getLast? = some last ∧
      c.head? = some first' ∧ c.getLast? = some last' ∧ first.sequence = first'.sequence ∧
      last.sequence = last'.sequence := by
  unfold batchID at hid hid'
  split at hid
  · rename_i first last hfirst hlast
    split at hid'
    · rename_i first' last' hfirst' hlast'
      refine ⟨first, last, first', last', hfirst, hlast, hfirst', hlast', ?_⟩
      have htext := (Option.some.inj hid).trans (Option.some.inj hid').symm
      have hlist := congrArg String.toList htext
      simp only [String.toList_append, List.append_assoc] at hlist
      have h1 := hb first (List.mem_of_head? hfirst)
      have h2 := hc first' (List.mem_of_head? hfirst')
      obtain ⟨hf, hl⟩ :=
        Texts.split_inj (sign_notMem_toString h1) (sign_notMem_toString h2) hlist
      exact ⟨eq_of_toString h1 h2 hf, eq_of_toString (hb last (List.mem_of_getLast? hlast))
        (hc last' (List.mem_of_getLast? hlast')) hl⟩
    · cases hid'
  · cases hid

end Journal

namespace PebbleStore

variable {env : Env} {s t : PebbleStore} {e : Event}

/-- A final status of a user job goes to the journal. -/
theorem journal_updateStatus (env : Env) {id : String} {r : Record} (hr : s.jobs.get id = some r)
    (status : Status) (now : Time) : (s.updateStatus env id status now).journal =
      if status.pending ∨ s.skipDrainEvents ∨ r.job.isWebhookDelivery then s.journal
      else s.journal.record (r.hash env) r.job.id status now := by
  have hkind : (r.withStatus status now).job.isWebhookDelivery = r.job.isWebhookDelivery := rfl
  unfold updateStatus
  rw [hr]
  simp only [Disk.recordDrainEvent, hkind]
  by_cases hp : status.pending = true
  · simp [hp, Disk.putRecordWithExpiry]
  by_cases hs : s.skipDrainEvents = true
  · simp [hs, Disk.putRecordWithExpiry]
  by_cases hk : r.job.isWebhookDelivery = true
  · simp [hp, hs, hk, Disk.putRecordWithExpiry]
  · simp [hp, hs, hk, Disk.putRecordWithExpiry]
    rfl

theorem rest_updateStatus (env : Env) (s : PebbleStore) (id : String) (status : Status)
    (now : Time) :
    (∀ id', (s.updateStatus env id status now).jobs.get id' =
      if id' = id then (s.jobs.get id').map (·.withStatus status now) else s.jobs.get id') ∧
    (s.updateStatus env id status now).idem = s.idem ∧
    (s.updateStatus env id status now).skipDrainEvents = s.skipDrainEvents := by
  rcases updateStatus_spec env s id status now with ⟨hr, heq⟩ | ⟨r, j, hr, heq⟩
  · rw [heq]
    refine ⟨fun id' => ?_, rfl, rfl⟩
    split_ifs with hid
    · rw [hid, hr, Option.map_none]
    · rfl
  · have hskip : (s.moveStatus r.job.status status).skipDrainEvents = s.skipDrainEvents := by
      unfold moveStatus
      split_ifs
      · rfl
      · cases r.job.status <;> cases status <;> rfl
    rw [heq]
    refine ⟨fun id' => ?_, rfl, hskip⟩
    show (s.jobs.put id (r.withStatus status now)).get id' = _
    rw [KeySpace.get_put]
    split_ifs with hid
    · rw [hid, hr, Option.map_some]
    · rfl

/-- What one operation does to the journal. -/
inductive Journaled (s t : PebbleStore) : Event → Prop
  | same {e : Event} : t.journal = s.journal → Journaled s t e
  | recorded {id : String} {status : Status} {now : Time} {hashKey jobID : String} :
    status.pending = false → (s.journal.jobs.get jobID).isSome = false →
    t.journal = s.journal.append (s.journal.nextEvent hashKey jobID status now) →
    Journaled s t (.updateStatus id status now)
  | acknowledged {n : Int} : t.journal = s.journal.acknowledgeThrough n →
    Journaled s t (.acknowledgeDrainEventsThrough n)
  | cleared : t.journal = {} → Journaled s t .clearIdempotentKeys

theorem journaled_updateStatus (env : Env) (s : PebbleStore) (id : String) (status : Status)
    (now : Time) :
    Journaled s (s.updateStatus env id status now) (.updateStatus id status now) := by
  cases hr : s.jobs.get id with
  | none =>
    refine .same ?_
    unfold updateStatus
    rw [hr]
  | some r =>
    have hjournal := journal_updateStatus env hr status now
    split_ifs at hjournal with hskip
    · exact .same hjournal
    · unfold Journal.record at hjournal
      split_ifs at hjournal with hmark
      · exact .same hjournal
      · have hfinal : status.pending = false := by simpa using fun h => hskip (.inl h)
        exact .recorded hfinal (by simpa using hmark) hjournal

theorem journaled_step (h : s.step env e = some t) : Journaled s t e := by
  cases e with
  | checkOrInsert job now =>
    simp only [step] at h
    split_ifs at h
    cases h
    refine .same ?_
    unfold checkOrInsert
    split <;> rfl
  | setQueueKey id queueKey =>
    cases h
    refine .same ?_
    unfold Disk.setQueueKey
    split <;> rfl
  | updateStatus id status now =>
    cases h
    exact journaled_updateStatus env s id status now
  | recordRetry id attempts =>
    cases h
    refine .same ?_
    unfold Disk.recordRetry
    split <;> rfl
  | putResult id result =>
    cases h
    refine .same ?_
    unfold Disk.putResult
    split <;> rfl
  | deleteJob id =>
    cases h
    refine .same ?_
    unfold deleteJob
    split
    · rfl
    · rw [toDisk_countStatus]
      rfl
  | pendingQueueKeys now =>
    cases h
    refine .same ?_
    unfold Disk.pendingQueueKeys
    split_ifs <;> rfl
  | queuedPage queueKey after createdBefore limit now =>
    cases h
    exact .same rfl
  | deleteExpired now =>
    cases h
    refine .same ?_
    obtain ⟨gone, heq, -⟩ := purge_deleteExpired env s now
    rw [heq]
    exact journal_purge
  | clearIdempotentKeys =>
    cases h
    exact .cleared rfl
  | setDrainEventsEnabled enabled =>
    cases h
    exact .same rfl
  | listDrainEvents limit =>
    cases h
    exact .same rfl
  | acknowledgeDrainEventsThrough n =>
    cases h
    exact .acknowledged rfl
  | reopen now =>
    cases h
    obtain ⟨_, _, hdisk⟩ := rest_new s.toDisk now
    exact .same (by rw [hdisk])

end PebbleStore

/-- A store, every drain event it has recorded so far, in order, and every listing it has given. -/
structure Numbered where
  store : PebbleStore
  given : List DrainEvent
  listed : List (List DrainEvent) := []

namespace Numbered

open PebbleStore (Journaled)

variable {env : Env} {d : Disk} {x y : Numbered} {e : PebbleStore.Event}

/-- An event is recorded when the journal has it and did not have it before. -/
def step (env : Env) (x : Numbered) (e : PebbleStore.Event) : Option Numbered :=
  (x.store.step env e).map fun t =>
    { store := t
      given := x.given ++ t.journal.recorded.filter (· ∉ x.store.journal.recorded)
      listed := match e with
        | .listDrainEvents limit => x.listed ++ [x.store.journal.list limit]
        | _ => x.listed }

def start (d : Disk) (opened : Time) : Numbered where
  store := PebbleStore.new d opened
  given := d.journal.recorded

/-- No final status once the counter has been cleared after events had been recorded. -/
def numbersKept (x : Numbered) : PebbleStore.Event → Bool
  | .updateStatus _ status _ =>
    status.pending || x.given.isEmpty || x.store.journal.sequence.isSome
  | _ => true

/-- The journal is what is left of the events given, and a listing is a part of them. -/
structure Kept (x : Numbered) : Prop where
  sound : x.store.journal.Sound
  ordered : x.given.Pairwise fun a b => a.sequence < b.sequence
  positive : ∀ e ∈ x.given, 0 < e.sequence
  counted : x.store.journal.sequence.isSome = true → ∀ e ∈ x.given,
    e.sequence ≤ x.store.journal.sequence.getD 0
  left : x.store.journal.recorded <:+ x.given
  parts : ∀ b ∈ x.listed, b <:+: x.given

namespace Kept

theorem shrink (h : Kept x) (hsound : y.store.journal.Sound)
    (hgiven : y.given = x.given ++ y.store.journal.recorded.filter
      (· ∉ x.store.journal.recorded))
    (hcounter : y.store.journal.sequence.isSome = true →
      y.store.journal.sequence = x.store.journal.sequence)
    (hleft : y.store.journal.recorded <:+ x.store.journal.recorded)
    (hparts : ∀ b ∈ y.listed, b ∈ x.listed ∨ b <:+: x.store.journal.recorded) : Kept y := by
  have hnone : y.store.journal.recorded.filter (· ∉ x.store.journal.recorded) = [] := by
    refine List.filter_eq_nil_iff.mpr fun e he hnew => ?_
    exact absurd (hleft.subset he) (of_decide_eq_true hnew)
  rw [hnone, List.append_nil] at hgiven
  refine ⟨hsound, hgiven ▸ h.ordered, hgiven ▸ h.positive, fun hsome e he => ?_,
    hgiven ▸ hleft.trans h.left, fun b hb => ?_⟩
  · have heq := hcounter hsome
    rw [heq] at hsome ⊢
    exact h.counted hsome e (hgiven ▸ he)
  · rw [hgiven]
    rcases hparts b hb with hold | hnew
    · exact h.parts b hold
    · exact hnew.trans h.left.isInfix

theorem append (h : Kept x) {d : DrainEvent} (hsound : y.store.journal.Sound)
    (hgiven : y.given = x.given ++ y.store.journal.recorded.filter
      (· ∉ x.store.journal.recorded))
    (hjournal : y.store.journal = x.store.journal.append d) (hlisted : y.listed = x.listed)
    (hcounter : x.store.journal.sequence.getD 0 < d.sequence)
    (hlast : ∀ e ∈ x.given, e.sequence < d.sequence) : Kept y := by
  have hrec : y.store.journal.recorded = x.store.journal.recorded ++ [d] := by
    rw [hjournal, h.sound.recorded_append hcounter]
  have hone : y.store.journal.recorded.filter (· ∉ x.store.journal.recorded) = [d] := by
    have hnew : d ∉ x.store.journal.recorded := fun hmem =>
      lt_irrefl _ (hlast d (h.left.subset hmem))
    rw [hrec, List.filter_append, List.filter_eq_nil_iff.mpr fun e he => by simp [he]]
    simp [hnew]
  rw [hone] at hgiven
  have hpos := h.sound.counted
  refine ⟨hsound, ?_, ?_, fun _ => ?_, ?_, fun b hb => ?_⟩
  · rw [hgiven, List.pairwise_append]
    refine ⟨h.ordered, List.pairwise_singleton _ _, fun a ha b hb => ?_⟩
    rw [List.mem_singleton.mp hb]
    exact hlast a ha
  · rw [hgiven, List.forall_mem_append, List.forall_mem_singleton]
    exact ⟨h.positive, by omega⟩
  · have hcount : y.store.journal.sequence.getD 0 = d.sequence := by
      rw [hjournal]
      rfl
    rw [hgiven, hcount, List.forall_mem_append, List.forall_mem_singleton]
    exact ⟨fun e he => (hlast e he).le, le_rfl⟩
  · rw [hrec, hgiven]
    obtain ⟨front, hfront⟩ := h.left
    exact ⟨front, by rw [← hfront, List.append_assoc]⟩
  · rw [hgiven]
    exact (h.parts b (hlisted ▸ hb)).trans (List.prefix_append _ _).isInfix

end Kept

theorem kept_start (h : d.journal.Sound) (opened : Time) : Kept (start d opened) := by
  have hjournal : (PebbleStore.new d opened).journal = d.journal := by
    obtain ⟨_, _, hdisk⟩ := PebbleStore.rest_new d opened
    rw [hdisk]
  constructor
  · exact hjournal.symm ▸ h
  · exact h.increasing
  · exact fun e he => (h.bounded e he).1
  · intro _ e he
    rw [show (start d opened).store.journal = d.journal from hjournal]
    exact (h.bounded e he).2
  · exact hjournal.symm ▸ List.suffix_rfl
  · exact fun b hb => absurd hb List.not_mem_nil

theorem kept_step (h : Kept x) (hok : x.numbersKept e = true) (hstep : step env x e = some y) :
    Kept y := by
  obtain ⟨t, ht, rfl⟩ := Option.map_eq_some_iff.mp hstep
  cases PebbleStore.journaled_step ht with
  | same hjournal =>
    refine h.shrink (hjournal ▸ h.sound) rfl (fun _ => congrArg Journal.sequence hjournal)
      (hjournal ▸ List.suffix_rfl) fun b hb => ?_
    -- a listing is the first part of the journal
    cases e with
    | listDrainEvents limit =>
      rcases List.mem_append.mp hb with hold | hnew
      · exact .inl hold
      · rw [List.mem_singleton.mp hnew]
        exact .inr (List.take_prefix _ _).isInfix
    | _ => exact .inl hb
  | acknowledged hjournal =>
    rename_i n
    refine h.shrink (hjournal ▸ h.sound.acknowledge n) rfl (fun _ => ?_) ?_ fun b hb => .inl hb
    · show t.journal.sequence = _
      rw [hjournal, h.sound.acknowledgeThrough_eq]
    · show t.journal.recorded <:+ _
      rw [hjournal, h.sound.recorded_acknowledge]
      exact Page.filter_lt_suffix n h.sound.increasing
  | cleared hjournal =>
    refine h.shrink (hjournal ▸ Journal.sound_empty) rfl (fun hsome => ?_) ?_ fun b hb => .inl hb
    · have hnone : t.journal.sequence.isSome = true := hsome
      rw [hjournal] at hnone
      cases hnone
    · show t.journal.recorded <:+ _
      rw [hjournal]
      exact List.nil_suffix
  | recorded hfinal hmark hjournal =>
    rename_i id status now hashKey jobID
    have hnext : x.store.journal.sequence.getD 0 <
        (x.store.journal.nextEvent hashKey jobID status now).sequence := Int.lt_succ _
    refine h.append (hjournal ▸ h.sound.append hnext hmark) rfl hjournal rfl hnext fun a ha => ?_
    have hkept : x.given.isEmpty = true ∨ x.store.journal.sequence.isSome = true := by
      simpa [numbersKept, hfinal] using hok
    rcases hkept with hnone | hsome
    · rw [List.isEmpty_iff.mp hnone] at ha
      cases ha
    · exact Int.lt_of_le_of_lt (h.counted hsome a ha) hnext

/-- In every run in which no final status is recorded after the counter of given numbers has been
cleared: a number stands for one event and a `batch_id` for one batch. -/
theorem numbers_identify_events {opened : Time} {es : List PebbleStore.Event}
    (hdisk : d.journal.Sound)
    (hkept : Trace.Along (step env) (fun x e => x.numbersKept e = true) (start d opened) es)
    (hrun : Trace.exec (step env) (start d opened) es = some y) :
    (∀ a ∈ y.given, ∀ b ∈ y.given, a.sequence = b.sequence → a = b) ∧
    ∀ b ∈ y.listed, ∀ c ∈ y.listed, ∀ id, Journal.batchID b = some id →
      Journal.batchID c = some id → b = c := by
  have h : Kept y := Trace.exec_invariant kept_step (kept_start hdisk opened) hkept hrun
  refine ⟨fun a ha b hb heq => ?_, fun b hb c hc id hid hid' => ?_⟩
  · have hnodup : (y.given.map DrainEvent.sequence).Nodup :=
      List.pairwise_map.mpr (h.ordered.imp ne_of_lt)
    exact List.inj_on_of_nodup_map hnodup ha hb heq
  · have hpart := h.parts b hb
    have hpart' := h.parts c hc
    obtain ⟨first, last, first', last', hf, hl, hf', hl', hfirst, hlast⟩ := Journal.batchID_inj
      (fun e he => h.positive e (hpart.subset he)) (fun e he => h.positive e (hpart'.subset he))
      hid hid'
    rw [Page.infix_eq_filter h.ordered hpart hf hl, Page.infix_eq_filter h.ordered hpart' hf' hl',
      hfirst, hlast]

def nextTenant : Job := { id := "b", userID := "v", idempotentKey := "l", createdAt := 6 }

/-- The batch of one tenant is delivered and the instance cleared for the next one. -/
def handedOver : List PebbleStore.Event :=
  [.checkOrInsert PebbleStore.plainJob 1000000, .updateStatus "a" .completed 2000000,
    .listDrainEvents 10, .acknowledgeDrainEventsThrough 1, .clearIdempotentKeys,
    .checkOrInsert nextTenant 3000000, .updateStatus "b" .failed 4000000, .listDrainEvents 10]

/-- The next tenant's first event has the number of the last one's, and its batch the `batch_id`. -/
theorem cleared_numbers_are_reused :
    ∃ y, Trace.exec (step PebbleStore.plainEnv) (start {} 0) handedOver = some y ∧
      (∃ a ∈ y.given, ∃ b ∈ y.given, a.sequence = b.sequence ∧ a.jobID = "a" ∧ b.jobID = "b") ∧
      ∃ b ∈ y.listed, ∃ c ∈ y.listed, Journal.batchID b = some "1-1" ∧
        Journal.batchID c = some "1-1" ∧ b ≠ c := by
  decide +kernel

/-- Two jobs finish, with an acknowledgement and a reopening in between. -/
def twoBatches : List PebbleStore.Event :=
  [.checkOrInsert PebbleStore.plainJob 1000000, .checkOrInsert nextTenant 1000000,
    .updateStatus "a" .completed 2000000, .listDrainEvents 10, .acknowledgeDrainEventsThrough 1,
    .reopen 3000000, .updateStatus "b" .failed 4000000, .listDrainEvents 10]

theorem numbers_identify_two_batches :
    ∃ y, Trace.exec (step PebbleStore.plainEnv) (start {} 0) twoBatches = some y ∧
      y.given.map DrainEvent.sequence = [1, 2] ∧
      ∀ a ∈ y.given, ∀ b ∈ y.given, a.sequence = b.sequence → a = b := by
  have hrun : ∃ y, Trace.exec (step PebbleStore.plainEnv) (start {} 0) twoBatches = some y ∧
      y.given.map DrainEvent.sequence = [1, 2] := by decide +kernel
  obtain ⟨y, hy, hnumbers⟩ := hrun
  exact ⟨y, hy, hnumbers,
    (numbers_identify_events Journal.sound_empty (by decide +kernel) hy).1⟩

end Numbered

end Aquifer
