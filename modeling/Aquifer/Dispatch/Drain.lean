import Aquifer.Storage.Numbering
import Aquifer.Storage.SQLite

/-! Drain mode: flushes that list, deliver and acknowledge under a lock and then clear the store
outside it, interleaved with each other and with the jobs of the instance. -/
namespace Aquifer

/-- What the instance does to its jobs meanwhile. -/
inductive JobWrite
  | checkOrInsert (job : Job) (now : Time)
  | updateStatus (id : String) (status : Status) (now : Time) (burned : Nat)
  | recordRetry (id : String) (attempts : Int)
  | deleteJob (id : String)
deriving DecidableEq, Repr

/-- The write as an operation of the Pebble store, which burns no numbers. -/
def JobWrite.event : JobWrite → PebbleStore.Event
  | .checkOrInsert job now => .checkOrInsert job now
  | .updateStatus id status now _ => .updateStatus id status now
  | .recordRetry id attempts => .recordRetry id attempts
  | .deleteJob id => .deleteJob id

namespace Backend

variable {env : Env} {b t : Backend} {w : JobWrite}

def journal : Backend → List DrainEvent
  | .sqlite q => q.drainEvents
  | .pebble p => p.journal.recorded

def pendingIDs : Backend → List String
  | .sqlite q => (q.jobs.rows.filter Row.pending).map Row.id
  | .pebble p => (p.jobs.entries.filter fun e => e.2.pending).map Prod.fst

/-- Jobs are inserted as `New` builds them, under an id not drawn before. -/
def write (env : Env) (b : Backend) (w : JobWrite) : Option Backend :=
  match b with
  | .pebble p => (p.step env w.event).map .pebble
  | .sqlite q =>
    match w with
    | .checkOrInsert job now =>
      if job.made env ∧ (q.jobs.find job.id).isNone then
        some (.sqlite (q.checkOrInsert env job now).1) else none
    | .updateStatus id status now burned => some (.sqlite (q.updateStatus id status now burned))
    | .recordRetry id attempts => some (.sqlite (q.recordRetry id attempts))
    | .deleteJob id => some (.sqlite (q.deleteJob id))

def listDrainEvents (limit : Int) : Backend → List DrainEvent
  | .sqlite q => q.listDrainEvents limit
  | .pebble p => p.journal.list limit

def acknowledgeDrainEventsThrough (sequence : Int) : Backend → Backend
  | .sqlite q => .sqlite (q.acknowledgeDrainEventsThrough sequence)
  | .pebble p => .pebble { p with journal := p.journal.acknowledgeThrough sequence }

def clearIdempotentKeys : Backend → Backend
  | .sqlite q => .sqlite q.clearIdempotentKeys
  | .pebble p => .pebble p.clearIdempotentKeys

def Sound : Backend → Prop
  | .sqlite q => q.Sound
  | .pebble p => p.journal.Sound

/-- What a write does to the journal: nothing, or one more event past all others. -/
inductive Grown (b t : Backend) : Prop
  | same : t.journal = b.journal → Grown b t
  | appended {e : DrainEvent} : t.journal = b.journal ++ [e] →
    (∀ x ∈ b.journal, x.sequence < e.sequence) → Grown b t

theorem Sound.increasing (h : b.Sound) :
    b.journal.Pairwise fun x y => x.sequence < y.sequence := by
  cases b with
  | sqlite q => exact SQLiteStore.Sound.increasing h
  | pebble p => exact Journal.Sound.increasing h

theorem grown_pebble {p p' : PebbleStore} (h : p.journal.Sound)
    (hstep : p.step env w.event = some p') :
    Sound (.pebble p') ∧ Grown (.pebble p) (.pebble p') := by
  have hjournaled := PebbleStore.journaled_step hstep
  generalize he : w.event = e at hjournaled
  cases hjournaled with
  | same hjournal =>
    exact ⟨by rwa [Sound, hjournal], .same (congrArg Journal.recorded hjournal)⟩
  | @recorded id status now hashKey jobID _ hmark hjournal =>
    have hnext : p.journal.sequence.getD 0 <
        (p.journal.nextEvent hashKey jobID status now).sequence := Int.lt_succ _
    refine ⟨?_, .appended ?_ fun x hx => Int.lt_of_le_of_lt (h.bounded x hx).2 hnext⟩
    · rw [Sound, hjournal]
      exact h.append hnext hmark
    · rw [journal, hjournal, h.recorded_append hnext]
      rfl
  | acknowledged _ => cases w <;> cases he
  | cleared _ => cases w <;> cases he

theorem grown_sqlite {q t : SQLiteStore} (h : q.Sound) (ht : SQLiteStore.Recorded q t) :
    Sound (.sqlite t) ∧ Grown (.sqlite q) (.sqlite t) := by
  refine ⟨h.recorded ht, ?_⟩
  cases ht with
  | same hevents _ => exact .same hevents
  | appended hevents hlt _ =>
    exact .appended hevents fun x hx => Int.lt_of_le_of_lt (h.bounded x hx).2 hlt

theorem grown_write (h : b.Sound) (hw : b.write env w = some t) : t.Sound ∧ Grown b t := by
  cases b with
  | sqlite q =>
    cases w with
    | checkOrInsert job now =>
      simp only [write] at hw
      split_ifs at hw
      cases hw
      exact grown_sqlite h (.same rfl le_rfl)
    | updateStatus id status now burned =>
      cases hw
      exact grown_sqlite h SQLiteStore.recorded_updateStatus
    | recordRetry id attempts =>
      cases hw
      exact grown_sqlite h (.same rfl le_rfl)
    | deleteJob id =>
      cases hw
      exact grown_sqlite h (.same rfl le_rfl)
  | pebble p =>
    obtain ⟨p', hp', rfl⟩ := Option.map_eq_some_iff.mp hw
    exact grown_pebble h hp'

theorem acknowledge (h : b.Sound) (n : Int) : (b.acknowledgeDrainEventsThrough n).Sound ∧
    (b.acknowledgeDrainEventsThrough n).journal = b.journal.filter fun e => n < e.sequence := by
  cases b with
  | sqlite q =>
    exact ⟨SQLiteStore.Sound.acknowledge h n, SQLiteStore.Sound.drainEvents_acknowledge h n⟩
  | pebble p => exact ⟨Journal.Sound.acknowledge h n, Journal.Sound.recorded_acknowledge h n⟩

theorem clear (h : b.Sound) : b.clearIdempotentKeys.Sound ∧ b.clearIdempotentKeys.journal = [] ∧
    b.clearIdempotentKeys.pendingIDs = [] := by
  cases b with
  | sqlite q =>
    exact ⟨⟨List.Pairwise.nil, fun e he => absurd he List.not_mem_nil, h.counted⟩, rfl, rfl⟩
  | pebble p => exact ⟨Journal.sound_empty, rfl, rfl⟩

theorem listDrainEvents_eq (b : Backend) (limit : Int) :
    ∃ n, 0 < n ∧ b.listDrainEvents limit = b.journal.take n := by
  refine ⟨batchSize limit, batchSize_pos limit, ?_⟩
  cases b <;> rfl

theorem pendingIDs_acknowledge (b : Backend) (n : Int) :
    (b.acknowledgeDrainEventsThrough n).pendingIDs = b.pendingIDs := by
  cases b with
  | sqlite q =>
    simp only [acknowledgeDrainEventsThrough, SQLiteStore.acknowledgeDrainEventsThrough]
    split_ifs <;> rfl
  | pebble p => rfl

theorem write_deleteJob {id : String} (h : b.pendingIDs = [])
    (hw : b.write env (.deleteJob id) = some t) :
    t.journal = b.journal ∧ t.pendingIDs = [] := by
  cases b with
  | sqlite q =>
    cases hw
    refine ⟨rfl, ?_⟩
    simp only [pendingIDs, List.map_eq_nil_iff, List.filter_eq_nil_iff] at h ⊢
    exact fun r hr => h r (List.mem_of_mem_filter hr)
  | pebble p =>
    cases hw
    simp only [journal, pendingIDs, List.map_eq_nil_iff, List.filter_eq_nil_iff] at h ⊢
    unfold PebbleStore.deleteJob
    split
    · exact ⟨rfl, h⟩
    · rw [PebbleStore.toDisk_countStatus]
      exact ⟨rfl, fun e he => h e (List.mem_of_mem_filter he)⟩

end Backend

/-- Where a flush is: before it has the lock, with a listing to deliver, with a delivered one to
acknowledge, or, for a flush that goes on to the end, after an empty listing. -/
inductive FlushPhase
  | waiting (full : Bool)
  | delivering (full : Bool) (events : List DrainEvent)
  | acknowledging (full : Bool) (through : Int)
  | clearing
deriving DecidableEq, Repr

/-- The store, the flushes under way and who has `drainFlushMu`. What is kept besides says what has
happened: every event recorded, every event delivered, and the pending jobs a clear removed. -/
structure Drain where
  store : Backend
  flushes : KeySpace Nat FlushPhase := {}
  drainFlushMu : Option Nat := none
  recorded : List DrainEvent
  delivered : List DrainEvent := []
  wiped : List String := []

namespace Drain

/-- `full` is `attemptDrainFlush`, of the watchdog or at shutdown, and not a periodic batch. -/
inductive Event
  | write (w : JobWrite)
  | begin (f : Nat) (full : Bool)
  | cancel (f : Nat)
  | list (f : Nat)
  | deliver (f : Nat) (ok : Bool)
  | acknowledge (f : Nat)
  | clear (f : Nat)
deriving DecidableEq, Repr

variable {env : Env} {limit : Int} {s t : Drain} {e : Event} {f : Nat}

def start (store : Backend) : Drain := { store := store, recorded := store.journal }

/-- A flush ends, with the lock if it had it. -/
def finish (s : Drain) (f : Nat) : Drain :=
  { s with
    flushes := s.flushes.del f
    drainFlushMu := if s.drainFlushMu = some f then none else s.drainFlushMu }

def step (env : Env) (limit : Int) (s : Drain) : Event → Option Drain
  | .write w => (s.store.write env w).map fun t =>
    { s with store := t, recorded := s.recorded ++ t.journal.filter (· ∉ s.store.journal) }
  | .begin f full =>
    if (s.flushes.get f).isNone then some { s with flushes := s.flushes.put f (.waiting full) }
    else none
  | .cancel f =>
    match s.flushes.get f with
    | some (.waiting _) => some (s.finish f)
    | _ => none
  | .list f =>
    match s.flushes.get f, s.drainFlushMu with
    | some (.waiting full), none =>
      if s.store.listDrainEvents limit = [] then
        if full then some { s with flushes := s.flushes.put f .clearing } else some (s.finish f)
      else
        some
          { s with
            flushes := s.flushes.put f (.delivering full (s.store.listDrainEvents limit))
            drainFlushMu := some f }
    | _, _ => none
  | .deliver f ok =>
    match s.flushes.get f with
    | some (.delivering full events) =>
      match events.getLast?, ok with
      | some last, true =>
        some
          { s with
            flushes := s.flushes.put f (.acknowledging full last.sequence)
            delivered := s.delivered ++ events }
      | _, _ => some (s.finish f)
    | _ => none
  | .acknowledge f =>
    match s.flushes.get f with
    | some (.acknowledging full through) =>
      let s := { s.finish f with store := s.store.acknowledgeDrainEventsThrough through }
      some (if full then { s with flushes := s.flushes.put f (.waiting true) } else s)
    | _ => none
  | .clear f =>
    match s.flushes.get f with
    | some .clearing =>
      some
        { s.finish f with
          store := s.store.clearIdempotentKeys
          wiped := s.wiped ++ s.store.pendingIDs }
    | _ => none

def aboutToClear (s : Drain) : Bool := s.flushes.entries.any fun x => x.2 = .clearing

/-- The condition under which nothing is lost: a flush meets its empty listing while no job is
pending, and nothing is submitted or written to a job's status from there to its clear. -/
def quiet (limit : Int) (s : Drain) : Event → Bool
  | .write (.deleteJob _) => true
  | .write _ => !s.aboutToClear
  | .list f => s.flushes.get f ≠ some (.waiting true) ||
    !(s.store.listDrainEvents limit).isEmpty || s.store.pendingIDs.isEmpty
  | _ => true

/-- What a flush in a phase may rely on. -/
def FlushPhase.Holds (s : Drain) (f : Nat) : FlushPhase → Prop
  | .waiting _ => True
  | .delivering _ events => s.drainFlushMu = some f ∧
    ∀ last, events.getLast? = some last → last ∈ s.store.journal ∧
      ∀ e ∈ s.store.journal, e.sequence ≤ last.sequence → e ∈ events
  | .acknowledging _ through => s.drainFlushMu = some f ∧
    (∃ last ∈ s.store.journal, last.sequence = through) ∧
    ∀ e ∈ s.store.journal, e.sequence ≤ through → e ∈ s.delivered
  | .clearing => s.store.journal = [] ∧ s.store.pendingIDs = []

structure Safe (s : Drain) : Prop where
  sound : s.store.Sound
  kept : ∀ e ∈ s.recorded, e ∈ s.store.journal ∨ e ∈ s.delivered
  wiped : s.wiped = []
  phases : ∀ f p, s.flushes.get f = some p → FlushPhase.Holds s f p

theorem safe_start {store : Backend} (h : store.Sound) : Safe (start store) :=
  ⟨h, fun _ he => .inl he, rfl, fun _ _ hp => by cases hp⟩

section Phases

variable {p : FlushPhase}

theorem FlushPhase.Holds.mono (h : FlushPhase.Holds s f p) (hstore : t.store = s.store)
    (hmu : s.drainFlushMu = some f → t.drainFlushMu = some f)
    (hdelivered : ∀ e ∈ s.delivered, e ∈ t.delivered) : FlushPhase.Holds t f p := by
  cases p with
  | waiting full => trivial
  | delivering full events => exact ⟨hmu h.1, hstore ▸ h.2⟩
  | acknowledging full through =>
    refine ⟨hmu h.1, hstore ▸ h.2.1, fun e he hle => hdelivered e ?_⟩
    exact h.2.2 e (hstore ▸ he) hle
  | clearing => exact ⟨hstore ▸ h.1, hstore ▸ h.2⟩

/-- The journal grows by an event past what a flush has listed. -/
theorem FlushPhase.Holds.grow (h : FlushPhase.Holds s f p) (hgrown : s.store.Grown t.store)
    (hmu : t.drainFlushMu = s.drainFlushMu) (hdelivered : t.delivered = s.delivered)
    (hp : p ≠ .clearing) : FlushPhase.Holds t f p := by
  have hsub : ∀ e ∈ s.store.journal, e ∈ t.store.journal := by
    intro e he
    cases hgrown with
    | same hjournal => exact hjournal ▸ he
    | appended hjournal _ => exact hjournal ▸ List.mem_append_left _ he
  -- a new event is past any event the journal had
  have hold : ∀ last ∈ s.store.journal, ∀ e ∈ t.store.journal, e.sequence ≤ last.sequence →
      e ∈ s.store.journal := by
    intro last hlast e he hle
    cases hgrown with
    | same hjournal => exact hjournal ▸ he
    | appended hjournal hpast =>
      rw [hjournal, List.mem_append, List.mem_singleton] at he
      rcases he with he | rfl
      · exact he
      · exact absurd hle (Int.not_le.mpr (hpast last hlast))
  cases p with
  | waiting full => trivial
  | delivering full events =>
    refine ⟨hmu ▸ h.1, fun last hl => ?_⟩
    obtain ⟨hmem, hall⟩ := h.2 last hl
    exact ⟨hsub last hmem, fun e he hle => hall e (hold last hmem e he hle) hle⟩
  | acknowledging full through =>
    obtain ⟨last, hlast, rfl⟩ := h.2.1
    refine ⟨hmu ▸ h.1, ⟨last, hsub last hlast, rfl⟩, fun e he hle => hdelivered ▸ ?_⟩
    exact h.2.2 e (hold last hlast e he hle) hle
  | clearing => exact absurd rfl hp

/-- Without the lock a flush waits or is about to clear. -/
theorem FlushPhase.Holds.unlocked (h : FlushPhase.Holds s f p) (hmu : s.drainFlushMu ≠ some f) :
    (∃ full, p = .waiting full) ∨ p = .clearing := by
  cases p with
  | waiting full => exact .inl ⟨full, rfl⟩
  | delivering full events => exact absurd h.1 hmu
  | acknowledging full through => exact absurd h.1 hmu
  | clearing => exact .inr rfl

end Phases

theorem mu_finish {g : Nat} (hne : g ≠ f) (hmu : s.drainFlushMu = some g) :
    (s.finish f).drainFlushMu = some g := by
  have : ¬ s.drainFlushMu = some f := by
    rw [hmu, Option.some.injEq]
    exact hne
  rw [finish, if_neg this, hmu]

theorem Safe.finish (h : Safe s) (f : Nat) : Safe (s.finish f) := by
  refine { h with phases := fun g p hp => ?_ }
  rw [Drain.finish, KeySpace.get_del] at hp
  split_ifs at hp with hne
  exact (h.phases g p hp).mono rfl (mu_finish hne) fun _ he => he

/-- One flush comes to a phase whose conditions hold. -/
theorem Safe.setPhase {p : FlushPhase} (h : Safe s) (hp : FlushPhase.Holds s f p) :
    Safe { s with flushes := s.flushes.put f p } := by
  refine { h with phases := fun g p' hg => ?_ }
  rw [KeySpace.get_put] at hg
  split_ifs at hg with hne
  · cases hg
    exact hne ▸ hp
  · exact h.phases g p' hg

theorem safe_write {w : JobWrite} (h : Safe s) (hok : s.quiet limit (.write w) = true)
    (hstep : s.step env limit (.write w) = some t) : Safe t := by
  obtain ⟨b, hb, rfl⟩ := Option.map_eq_some_iff.mp hstep
  obtain ⟨hsound, hgrown⟩ := Backend.grown_write h.sound hb
  refine ⟨hsound, fun e he => ?_, h.wiped, fun f p hp => ?_⟩
  · rcases List.mem_append.mp he with hold | hnew
    · refine (h.kept e hold).imp_left fun hmem => ?_
      cases hgrown with
      | same hjournal => exact hjournal ▸ hmem
      | appended hjournal _ => exact hjournal ▸ List.mem_append_left _ hmem
    · exact .inl (List.mem_of_mem_filter hnew)
  · by_cases hclear : p = .clearing
    · -- only a deletion is possible, and it keeps what the clear needs
      subst hclear
      have habout : s.aboutToClear = true := by
        refine List.any_eq_true.mpr ⟨(f, .clearing), KeySpace.get_eq_some_iff.mp hp, ?_⟩
        exact decide_eq_true rfl
      cases w with
      | deleteJob id =>
        obtain ⟨hempty, hnone⟩ := h.phases f .clearing hp
        obtain ⟨hjournal, hpending⟩ := Backend.write_deleteJob hnone hb
        exact ⟨hjournal.trans hempty, hpending⟩
      | _ => exact absurd habout (by simpa [quiet] using hok)
    · exact (h.phases f p hp).grow hgrown rfl rfl hclear

theorem safe_list (h : Safe s) (hok : s.quiet limit (.list f) = true)
    (hstep : s.step env limit (.list f) = some t) : Safe t := by
  simp only [step] at hstep
  split at hstep
  · rename_i full hf hmu
    obtain ⟨n, hn, hlist⟩ := s.store.listDrainEvents_eq limit
    split_ifs at hstep with hempty hfull
    · cases hstep
      subst hfull
      have hjournal : s.store.journal = [] :=
        (List.take_eq_nil_iff.mp (hlist ▸ hempty)).resolve_left hn.ne'
      have hpending : s.store.pendingIDs = [] := by
        simpa [quiet, hf, hempty] using hok
      exact h.setPhase ⟨hjournal, hpending⟩
    · cases hstep
      exact h.finish f
    · cases hstep
      refine { h with phases := fun g p hp => ?_ }
      rw [KeySpace.get_put] at hp
      split_ifs at hp with hg
      · cases hp
        subst hg
        refine ⟨rfl, fun last hlast => ?_⟩
        rw [hlist] at hlast ⊢
        refine ⟨List.mem_of_mem_take (List.mem_of_getLast? hlast), fun e he hle => ?_⟩
        -- past the listing are later numbers only
        have hrest := Page.filter_after_take h.sound.increasing hlast
        rw [← List.take_append_drop n s.store.journal, List.mem_append] at he
        refine he.resolve_right fun hdrop => ?_
        rw [← hrest] at hdrop
        exact absurd hle (Int.not_le.mpr (of_decide_eq_true (List.mem_filter.mp hdrop).2))
      · refine (h.phases g p hp).mono rfl (fun hg' => ?_) fun _ he => he
        exact absurd (hmu.symm.trans hg') (by simp)
  · cases hstep

theorem safe_deliver {ok : Bool} (h : Safe s)
    (hstep : s.step env limit (.deliver f ok) = some t) : Safe t := by
  simp only [step] at hstep
  split at hstep
  · rename_i full events hf
    split at hstep
    · rename_i last hlast
      cases hstep
      obtain ⟨hmu, hlisted⟩ := h.phases f _ hf
      obtain ⟨hmem, hall⟩ := hlisted last hlast
      have hmore : ∀ e ∈ s.delivered, e ∈ s.delivered ++ events := fun _ he =>
        List.mem_append_left events he
      refine ⟨h.sound, fun e he => (h.kept e he).imp_right (hmore e), h.wiped, fun g p hp => ?_⟩
      rw [KeySpace.get_put] at hp
      split_ifs at hp with hg
      · cases hp
        subst hg
        exact ⟨hmu, ⟨last, hmem, rfl⟩, fun e he hle => List.mem_append_right _ (hall e he hle)⟩
      · exact (h.phases g p hp).mono rfl (fun hmu => hmu) hmore
    · cases hstep
      exact h.finish f
  · cases hstep

theorem safe_acknowledge (h : Safe s)
    (hstep : s.step env limit (.acknowledge f) = some t) : Safe t := by
  simp only [step] at hstep
  split at hstep
  · rename_i full through hf
    obtain ⟨hmu, -, hall⟩ := h.phases f _ hf
    obtain ⟨hsound, hjournal⟩ := Backend.acknowledge h.sound through
    have hacked : Safe { s.finish f with
        store := s.store.acknowledgeDrainEventsThrough through } := by
      refine ⟨hsound, fun e he => ?_, h.wiped, fun g p hp => ?_⟩
      · rcases h.kept e he with hmem | hdone
        · by_cases hle : e.sequence ≤ through
          · exact .inr (hall e hmem hle)
          · refine .inl (hjournal ▸ List.mem_filter.mpr ⟨hmem, decide_eq_true ?_⟩)
            exact Int.not_le.mp hle
        · exact .inr hdone
      · have hp : (s.flushes.del f).get g = some p := hp
        rw [KeySpace.get_del] at hp
        split_ifs at hp with hg
        -- no other flush has the lock
        have hother : s.drainFlushMu ≠ some g := by
          rw [hmu, ne_eq, Option.some.injEq]
          exact Ne.symm hg
        rcases (h.phases g p hp).unlocked hother with ⟨full, rfl⟩ | rfl
        · trivial
        · obtain ⟨hempty, hpending⟩ := h.phases g .clearing hp
          refine ⟨hjournal.trans (by rw [hempty]; rfl), ?_⟩
          exact (Backend.pendingIDs_acknowledge _ _).trans hpending
    split_ifs at hstep
    · cases hstep
      exact hacked.setPhase trivial
    · cases hstep
      exact hacked
  · cases hstep

theorem safe_clear (h : Safe s) (hstep : s.step env limit (.clear f) = some t) : Safe t := by
  simp only [step] at hstep
  split at hstep
  · rename_i hf
    cases hstep
    obtain ⟨hempty, hnone⟩ := h.phases f _ hf
    obtain ⟨hsound, hjournal, hpending⟩ := Backend.clear h.sound
    refine ⟨hsound, fun e he => ?_, ?_, fun g p hp => ?_⟩
    · refine (h.kept e he).imp_left fun hmem => ?_
      rw [hempty] at hmem
      cases hmem
    · show s.wiped ++ s.store.pendingIDs = []
      rw [h.wiped, hnone]
      rfl
    · have hp : (s.flushes.del f).get g = some p := hp
      rw [KeySpace.get_del] at hp
      split_ifs at hp with hg
      have hphase := h.phases g p hp
      cases p with
      | waiting full => trivial
      | delivering full events =>
        refine ⟨mu_finish hg hphase.1, fun last hlast => ?_⟩
        have hmem := (hphase.2 last hlast).1
        rw [hempty] at hmem
        cases hmem
      | acknowledging full through =>
        obtain ⟨last, hmem, -⟩ := hphase.2.1
        rw [hempty] at hmem
        cases hmem
      | clearing => exact ⟨hjournal, hpending⟩
  · cases hstep

theorem safe_step (h : Safe s) (hok : s.quiet limit e = true)
    (hstep : s.step env limit e = some t) : Safe t := by
  cases e with
  | write w => exact safe_write h hok hstep
  | begin f full =>
    simp only [step] at hstep
    split_ifs at hstep
    cases hstep
    exact h.setPhase trivial
  | cancel f =>
    simp only [step] at hstep
    split at hstep
    · cases hstep
      exact h.finish f
    · cases hstep
  | list f => exact safe_list h hok hstep
  | deliver f ok => exact safe_deliver h hstep
  | acknowledge f => exact safe_acknowledge h hstep
  | clear f => exact safe_clear h hstep

/-- In every interleaving in which a full flush meets its empty listing while no job is pending and
no job is submitted or changed from there to its clear: an event leaves the journal only after a
delivery with it has succeeded, and no clear removes a pending job. -/
theorem drain_loses_nothing {store : Backend} {es : List Event} (hstore : store.Sound)
    (hquiet : Trace.Along (step env limit) (fun s e => s.quiet limit e = true) (start store) es)
    (hrun : Trace.exec (step env limit) (start store) es = some t) :
    (∀ e ∈ t.recorded, e ∈ t.store.journal ∨ e ∈ t.delivered) ∧ t.wiped = [] := by
  have h : Safe t := Trace.exec_invariant safe_step (safe_start hstore) hquiet hrun
  exact ⟨h.kept, h.wiped⟩

def lateJob : Job :=
  { id := "a", userID := "u", idempotentKey := "k", webhookURL := "https://w", createdAt := 5 }

def laterJob : Job :=
  { id := "b", userID := "u", idempotentKey := "l", webhookURL := "https://w", createdAt := 6 }

/-- The idle instance lists nothing and clears; in between a job arrives, and may finish. -/
def lateArrival (finished : List Event) : List Event :=
  [.begin 0 true, .list 0, .write (.checkOrInsert lateJob 1000000)] ++ finished ++ [.clear 0]

/-- A batch lists the late job's event before the clear and acknowledges it after. -/
def staleAcknowledgement : List Event :=
  [.begin 0 true, .list 0, .write (.checkOrInsert lateJob 1000000),
    .write (.updateStatus "a" .completed 2000000 0), .begin 1 false, .list 1, .clear 0,
    .write (.checkOrInsert laterJob 3000000), .write (.updateStatus "b" .completed 4000000 0),
    .deliver 1 true, .acknowledge 1]

/-- The clear removes the late job while it is pending, on either store, or the event of its
completion before any delivery. On Pebble the number of that event is given out again, and its
acknowledgement deletes another event that was never delivered. -/
theorem clear_destroys_late_job :
    (∃ t, Trace.exec (step PebbleStore.plainEnv 10) (start (.sqlite {})) (lateArrival []) =
      some t ∧ t.wiped = ["a"]) ∧
    (∃ t, Trace.exec (step PebbleStore.plainEnv 10) (start (.pebble (PebbleStore.new {} 0)))
      (lateArrival []) = some t ∧ t.wiped = ["a"]) ∧
    (∃ t, Trace.exec (step PebbleStore.plainEnv 10) (start (.sqlite {}))
      (lateArrival [.write (.updateStatus "a" .completed 2000000 0)]) = some t ∧
      t.recorded.map DrainEvent.jobID = ["a"] ∧ t.store.journal = [] ∧ t.delivered = []) ∧
    (∃ t, Trace.exec (step PebbleStore.plainEnv 10) (start (.pebble (PebbleStore.new {} 0)))
      (lateArrival [.write (.updateStatus "a" .completed 2000000 0)]) = some t ∧
      t.recorded.map DrainEvent.jobID = ["a"] ∧ t.store.journal = [] ∧ t.delivered = []) ∧
    ∃ t, Trace.exec (step PebbleStore.plainEnv 10) (start (.pebble (PebbleStore.new {} 0)))
      staleAcknowledgement = some t ∧ t.recorded.map DrainEvent.jobID = ["a", "b"] ∧
      t.store.journal = [] ∧ t.delivered.map DrainEvent.jobID = ["a"] := by
  decide +kernel

/-- A job finishes and a full flush runs to its end, after a first delivery has failed. -/
def handOver : List Event :=
  [.write (.checkOrInsert lateJob 1000000), .write (.updateStatus "a" .completed 2000000 0),
    .begin 0 false, .list 0, .deliver 0 false, .begin 1 true, .list 1, .deliver 1 true,
    .acknowledge 1, .list 1, .clear 1]

theorem drain_loses_nothing_at_hand_over : ∃ t, Trace.exec (step PebbleStore.plainEnv 10)
    (start (.pebble (PebbleStore.new {} 0))) handOver = some t ∧
    t.recorded.map DrainEvent.jobID = ["a"] ∧ t.store.journal = [] ∧
    (∀ e ∈ t.recorded, e ∈ t.delivered) ∧ t.wiped = [] := by
  have hrun : ∃ t, Trace.exec (step PebbleStore.plainEnv 10)
      (start (.pebble (PebbleStore.new {} 0))) handOver = some t ∧
      t.recorded.map DrainEvent.jobID = ["a"] ∧ t.store.journal = [] := by decide +kernel
  obtain ⟨t, ht, hids, hempty⟩ := hrun
  have hsound : (Backend.pebble (PebbleStore.new {} 0)).Sound := Journal.sound_empty
  obtain ⟨hkept, hwiped⟩ := drain_loses_nothing hsound (by decide +kernel) ht
  refine ⟨t, ht, hids, hempty, fun e he => (hkept e he).resolve_left ?_, hwiped⟩
  rw [hempty]
  exact List.not_mem_nil

end Drain

end Aquifer
