import Aquifer.Dispatch.Retire

/-! The destination's own choice between one queue per tenant and one shared queue: workers apply
its answers under their own lock and tell the registry afterwards. -/
namespace Aquifer

/-- The registry with what decides its workers' modes. `reports` are answers that a worker has
applied and not yet passed to the registry, and `answers` is every answer, the latest first. -/
structure Destinations where
  registry : Registry := {}
  destinationMode : Nat → Option Bool := fun _ => none
  senderOptIn : Nat → Bool := fun _ => false
  destinationAccountQueue : Assoc String Bool := ∅
  reports : List (String × Bool) := []
  answers : List (String × Bool) := []

inductive Destinations.Event
  | registry (e : Registry.Event)
  | senderHeader (w : Nat) (on : Bool)
  | answer (w : Nat) (on : Bool)
  | remember (i : Nat)
deriving DecidableEq

namespace Destinations

section Model

variable (c : Routing) (s : Destinations)

/-- `applyAccountQueueModeLocked`. -/
def applyMode (w : Nat) : Destinations :=
  { s with
    registry := s.registry.setWorker w { s.registry.worker w with
      accountQueueMode := (s.destinationMode w).getD (c.accountQueueDefault || s.senderOptIn w) } }

/-- The registry after a step of its own. A worker that the step has created takes up the choice
that is remembered for its key. -/
def adopt (t : Registry) : Destinations :=
  let w := s.registry.workerCount
  if t.workerCount = w then { s with registry := t }
  else
    { s with
      registry := t
      destinationMode := Function.update s.destinationMode w
        (s.destinationAccountQueue.lookup (t.worker w).key)
      senderOptIn := Function.update s.senderOptIn w false }.applyMode c w

def keyOf (w : Nat) : String := (s.registry.worker w).key

/-- `HandleDestinationAccountQueue`, up to the call of `remember`. -/
def handleDestinationAccountQueue (w : Nat) (on : Bool) : Destinations :=
  { s with
    destinationMode := Function.update s.destinationMode w (some on)
    reports :=
      if s.destinationMode w = some on then s.reports else s.reports ++ [(s.keyOf w, on)]
    answers := (s.keyOf w, on) :: s.answers }.applyMode c w

def step : Event → Option Destinations
  -- the modes are set by the steps below
  | .registry (.mode _ _) => none
  | .registry e => (s.registry.step c e).map (s.adopt c)
  | .senderHeader w on =>
    if w < s.registry.workerCount then
      if on then some ({ s with senderOptIn := Function.update s.senderOptIn w true }.applyMode c w)
      else some s
    else none
  | .answer w on =>
    if w < s.registry.workerCount then some (s.handleDestinationAccountQueue c w on) else none
  | .remember i =>
    match s.reports[i]? with
    | some (key, on) =>
      some { s with
        destinationAccountQueue := s.destinationAccountQueue.insert key on
        reports := s.reports.eraseIdx i }
    | none => none

def reportsOf (key : String) : List Bool :=
  (s.reports.filter fun r => r.1 = key).map Prod.snd

def lastAsked (key : String) : Option Bool := s.answers.lookup key

end Model

end Destinations

/-! ### What steps of the registry do to its workers -/

namespace Registry

variable {c : Routing} {s t : Registry} {e : Event} {q v w : Nat} {job : Job}

def Worker.label (x : Worker) : String × Bool := (x.key, x.accountQueueMode)

theorem label_setWorker {x : Worker} (hx : x.label = (s.worker w).label) :
    ((s.setWorker w x).worker v).label = (s.worker v).label := by
  rw [worker_setWorker]
  split
  · next heq => exact heq ▸ hx
  · rfl

theorem label_grant : ((s.grant c job w).worker v).label = (s.worker v).label := by
  have hopen : ∀ key, ((s.openQueue w key).1.worker v).label = (s.worker v).label := by
    intro key
    unfold openQueue
    split
    · rfl
    · exact label_setWorker rfl
  exact hopen _

theorem label_onIdle : ((s.onIdle q).worker v).label = (s.worker v).label := by
  simp only [onIdle]
  split
  · rfl
  · split <;> exact label_setWorker rfl

/-- The keys and modes of the workers stay, and at most one worker is created, under a key that has
none. -/
structure Grown (s t : Registry) : Prop where
  label : ∀ {w}, w < s.workerCount → (t.worker w).label = (s.worker w).label
  count : t.workerCount = s.workerCount ∨ t.workerCount = s.workerCount + 1 ∧
    s.workers.lookup (t.worker s.workerCount).key = none

theorem Grown.of_label (hcount : t.workerCount = s.workerCount)
    (hlabel : ∀ w, (t.worker w).label = (s.worker w).label) : Grown s t :=
  ⟨fun _ => hlabel _, .inl hcount⟩

theorem Grown.resolveWorker {key : String} {direct : Bool} :
    Grown s (s.resolveWorker c key direct).1 := by
  unfold Registry.resolveWorker
  split
  · exact .of_label rfl fun _ => rfl
  · next hnone =>
    refine ⟨fun hw => ?_, .inr ⟨rfl, ?_⟩⟩
    · rw [worker_newWorker, if_neg hw.ne]
    · rw [worker_newWorker, if_pos rfl]
      exact hnone

theorem grown_step (h : Stepped c s e t) (he : ∀ w on, e ≠ .mode w on) : Grown s t := by
  cases h with
  | resolve =>
    obtain ⟨hlabel, hcount⟩ := Grown.resolveWorker (s := s)
    exact ⟨hlabel, hcount⟩
  | workerFor => exact Grown.resolveWorker
  | grant =>
    refine .of_label ?_ fun _ => label_grant
    rw [grant_eq]
  | onIdle =>
    refine .of_label ?_ fun _ => label_onIdle
    rw [onIdle_eq]
  | dropStale | notify =>
    rw [dropWorker_eq]
    exact .of_label rfl fun _ => rfl
  | mode => exact absurd rfl (he _ _)
  | submit | refuse | reject | handoff | account | leftInFlight | attach | takeSpills
      | paged | elapse
  | take | load | finish | expire | exhaust | idle | check | recheck =>
    exact .of_label rfl fun _ => rfl

end Registry

namespace Destinations

variable {c : Routing} {s t : Destinations} {key : String} {v w : Nat}

/-- The newest worker of a key, registered or retired. -/
def Latest (s : Destinations) (key : String) (w : Nat) : Prop :=
  w < s.registry.workerCount ∧ s.keyOf w = key ∧
    ∀ v < s.registry.workerCount, s.keyOf v = key → v ≤ w

/-- A worker's mode is the destination's choice or else what the node and the senders ask for. -/
def Tuned (c : Routing) (s : Destinations) (w : Nat) : Prop :=
  (s.registry.worker w).accountQueueMode =
    (s.destinationMode w).getD (c.accountQueueDefault || s.senderOptIn w)

theorem workerCount_applyMode :
    (s.applyMode c w).registry.workerCount = s.registry.workerCount := rfl

theorem keyOf_applyMode : (s.applyMode c w).keyOf v = s.keyOf v := by
  simp only [keyOf, applyMode, Registry.worker_setWorker]
  split
  · next heq => rw [heq]
  · rfl

theorem Tuned.of_label (h : s.Tuned c w)
    (hlabel : (t.registry.worker w).label = (s.registry.worker w).label)
    (hmode : t.destinationMode w = s.destinationMode w)
    (hopt : t.senderOptIn w = s.senderOptIn w) : t.Tuned c w := by
  have hsame : (t.registry.worker w).accountQueueMode = (s.registry.worker w).accountQueueMode :=
    congrArg Prod.snd hlabel
  rw [Tuned, hsame, hmode, hopt]
  exact h

theorem tuned_applyMode (h : v ≠ w → s.Tuned c v) : (s.applyMode c w).Tuned c v := by
  unfold Tuned applyMode
  dsimp only
  rw [Registry.worker_setWorker]
  split
  · next heq => rw [heq]
  · next hne => exact h hne

theorem sound_applyMode (h : s.registry.Sound) (hw : w < s.registry.workerCount) :
    (s.applyMode c w).registry.Sound :=
  Registry.sound_step h (.mode (c := c) hw)

theorem adopt_cases {r : Registry} (h : s.registry.Grown r) :
    r.workerCount = s.registry.workerCount ∧ s.adopt c r = { s with registry := r } ∨
    r.workerCount = s.registry.workerCount + 1 ∧
      s.registry.workers.lookup (r.worker s.registry.workerCount).key = none ∧
      s.adopt c r =
        { s with
          registry := r
          destinationMode := Function.update s.destinationMode s.registry.workerCount
            (s.destinationAccountQueue.lookup (r.worker s.registry.workerCount).key)
          senderOptIn := Function.update s.senderOptIn s.registry.workerCount false }.applyMode c
            s.registry.workerCount := by
  unfold adopt
  rcases h.count with hcount | ⟨hcount, hnone⟩
  · exact .inl ⟨hcount, if_pos hcount⟩
  · exact .inr ⟨hcount, hnone, if_neg (by omega)⟩

/-- The steps, one for each way an event can go. -/
inductive Stepped (c : Routing) (s : Destinations) : Event → Destinations → Prop
  | registry {e : Registry.Event} {r : Registry} (hrun : s.registry.step c e = some r)
      (hgrown : s.registry.Grown r) : Stepped c s (.registry e) (s.adopt c r)
  | optIn {w : Nat} (hw : w < s.registry.workerCount) :
      Stepped c s (.senderHeader w true)
        ({ s with senderOptIn := Function.update s.senderOptIn w true }.applyMode c w)
  | noOptIn {w : Nat} : Stepped c s (.senderHeader w false) s
  | answer {w : Nat} {on : Bool} (hw : w < s.registry.workerCount) :
      Stepped c s (.answer w on) (s.handleDestinationAccountQueue c w on)
  | remember {i : Nat} {k : String} {on : Bool} (hi : s.reports[i]? = some (k, on)) :
      Stepped c s (.remember i) { s with
        destinationAccountQueue := s.destinationAccountQueue.insert k on
        reports := s.reports.eraseIdx i }

theorem stepped_of_step {e : Event} (h : s.step c e = some t) : Stepped c s e t := by
  cases e with
  | registry e =>
    have hmode : ∀ w on, e ≠ .mode w on := by
      rintro w on rfl
      cases h
    have hstep : (s.registry.step c e).map (s.adopt c) = some t := by
      rw [← h]
      cases e <;> first | rfl | exact absurd rfl (hmode _ _)
    obtain ⟨r, hr, rfl⟩ := Option.map_eq_some_iff.mp hstep
    exact .registry hr (Registry.grown_step (Registry.stepped_of_step hr) hmode)
  | senderHeader w on =>
    simp only [step] at h
    split at h
    · next hw =>
      cases on with
      | true =>
        cases h
        exact .optIn hw
      | false =>
        cases h
        exact .noOptIn
    · cases h
  | answer w on =>
    simp only [step] at h
    split at h
    · next hw =>
      cases h
      exact .answer hw
    · cases h
  | remember i =>
    simp only [step] at h
    split at h
    · next hi =>
      cases h
      exact .remember hi
    · cases h

/-! ### What holds in every run -/

/-- The registry inside is one that its own steps lead to, its map has the newest worker of a key if
any, and every worker has the mode its settings give. -/
structure Consistent (c : Routing) (s : Destinations) : Prop where
  sound : s.registry.Sound
  newest : ∀ {k w v}, s.registry.workers.lookup k = some w → v < s.registry.workerCount →
    s.keyOf v = k → v ≤ w
  tuned : ∀ {w}, w < s.registry.workerCount → s.Tuned c w

theorem Consistent.latest (h : Consistent c s) (hw : s.registry.workers.lookup key = some w) :
    s.Latest key w :=
  ⟨(h.sound.workers.entry hw).1, (h.sound.workers.entry hw).2, fun _ => h.newest hw⟩

theorem consistent_init : Consistent c {} where
  sound := Registry.sound_init
  newest h := by cases h
  tuned h := by cases h

/-- A change of one worker's settings that is followed by `applyMode`. -/
theorem Consistent.applyMode (h : Consistent c s) (hw : w < s.registry.workerCount)
    (hreg : t.registry = s.registry)
    (hmode : ∀ v, v ≠ w → t.destinationMode v = s.destinationMode v)
    (hopt : ∀ v, v ≠ w → t.senderOptIn v = s.senderOptIn v) : Consistent c (t.applyMode c w) where
  sound := sound_applyMode (hreg ▸ h.sound) (hreg ▸ hw)
  newest hk hv hkey := by
    rw [keyOf_applyMode, keyOf, hreg] at hkey
    change t.registry.workers.lookup _ = _ at hk
    change _ < t.registry.workerCount at hv
    rw [hreg] at hk hv
    exact h.newest hk hv hkey
  tuned {v} hv := by
    refine tuned_applyMode fun hne => ?_
    change v < t.registry.workerCount at hv
    rw [hreg] at hv
    rw [Tuned, hreg, hmode v hne, hopt v hne]
    exact h.tuned hv

/-- The map of the registry after a step of its own still has the newest worker of a key. -/
theorem Consistent.newest_step {e : Registry.Event} {r : Registry} {k : String}
    (h : Consistent c s) (hstep : Registry.Stepped c s.registry e r) (hgrown : s.registry.Grown r)
    (hk : r.workers.lookup k = some w) (hv : v < r.workerCount) (hkey : (r.worker v).key = k) :
    v ≤ w := by
  have hcount := hgrown.count
  rcases Registry.lookup_workers_step hstep hk with hold | ⟨-, hnew⟩
  · rcases lt_or_ge v s.registry.workerCount with hlt | hge
    · have hsame := congrArg Prod.fst (hgrown.label hlt)
      exact h.newest hold hlt (hsame.symm.trans hkey)
    · obtain ⟨heq, hnone⟩ := hcount.resolve_left (by omega)
      obtain rfl : v = s.registry.workerCount := by omega
      rw [hkey, hold] at hnone
      cases hnone
  · omega

theorem consistent_step {e : Event} (h : Consistent c s) (hstep : s.step c e = some t) :
    Consistent c t := by
  cases stepped_of_step hstep with
  | registry hrun hgrown =>
    have hr := Registry.stepped_of_step hrun
    have hsound := Registry.sound_step h.sound hr
    rcases adopt_cases (c := c) hgrown with ⟨hcount, heq⟩ | ⟨hcount, hnone, heq⟩
    · rw [heq]
      refine ⟨hsound, fun hk hv hkey => h.newest_step hr hgrown hk hv hkey, fun hv => ?_⟩
      have hold := hv.trans_eq hcount
      exact (h.tuned hold).of_label (hgrown.label hold) rfl rfl
    · rw [heq]
      refine ⟨sound_applyMode hsound (by dsimp only; omega), ?_, ?_⟩
      · intro k w v hk hv hkey
        rw [keyOf_applyMode] at hkey
        exact h.newest_step hr hgrown hk hv hkey
      · intro v hv
        refine tuned_applyMode fun hne => ?_
        have hold : v < s.registry.workerCount := by
          rw [workerCount_applyMode] at hv
          dsimp only at hv
          omega
        exact (h.tuned hold).of_label (hgrown.label hold) (Function.update_of_ne hne _ _)
          (Function.update_of_ne hne _ _)
  | optIn hw => exact h.applyMode hw rfl (fun _ _ => rfl) fun _ hne => Function.update_of_ne hne _ _
  | noOptIn => exact h
  | answer hw =>
    exact h.applyMode hw rfl (fun _ hne => Function.update_of_ne hne _ _) fun _ _ => rfl
  | remember => exact { h with }

/-! ### Answers that do not overlap -/

/-- At the key, answers reach the newest worker, and those that change its choice do so while no
earlier change is waiting to be remembered; nor is one waiting when a worker is created. -/
def Orderly (c : Routing) (key : String) (s : Destinations) : Event → Prop
  | .registry e => ∀ r ∈ s.registry.step c e, r.workerCount ≠ s.registry.workerCount →
      (r.worker s.registry.workerCount).key = key → s.reportsOf key = []
  | .answer w on => s.keyOf w = key →
      s.Latest key w ∧ (s.destinationMode w ≠ some on → s.reportsOf key = [])
  | _ => True

instance (s : Destinations) (w : Nat) : Decidable (s.Latest key w) := by
  unfold Latest
  infer_instance

instance (s : Destinations) (e : Event) : Decidable (Orderly c key s e) := by
  cases e <;> unfold Orderly <;> infer_instance

/-- The newest worker of the key has the choice that the destination last asked for. It is also
remembered, or on its way to be. -/
structure Agreed (key : String) (s : Destinations) : Prop where
  latest : ∀ {w}, s.Latest key w → s.destinationMode w = s.lastAsked key
  pending : s.reportsOf key = [] ∧ s.destinationAccountQueue.lookup key = s.lastAsked key ∨
    ∃ on, s.reportsOf key = [on] ∧ s.lastAsked key = some on

theorem agreed_init : Agreed key {} where
  latest h := absurd h.1 (Nat.not_lt_zero _)
  pending := .inl ⟨rfl, rfl⟩

theorem Agreed.remembered (h : Agreed key s) (hquiet : s.reportsOf key = []) :
    s.destinationAccountQueue.lookup key = s.lastAsked key := by
  rcases h.pending with ⟨-, hsame⟩ | ⟨on, hone, -⟩
  · exact hsame
  · rw [hquiet] at hone
    cases hone

/-- Being the newest worker of a key depends on the workers' keys only. -/
theorem latest_congr (hcount : t.registry.workerCount = s.registry.workerCount)
    (hkey : ∀ v < s.registry.workerCount, t.keyOf v = s.keyOf v) :
    t.Latest key w ↔ s.Latest key w := by
  unfold Latest
  rw [hcount]
  refine and_congr_right fun hw => ?_
  rw [hkey w hw]
  exact and_congr_right fun _ => forall₂_congr fun v hv => by rw [hkey v hv]

theorem reportsOf_append {k : String} {on : Bool} (hr : t.reports = s.reports ++ [(k, on)]) :
    t.reportsOf key = s.reportsOf key ++ if k = key then [on] else [] := by
  rw [reportsOf, reportsOf, hr, List.filter_append, List.map_append]
  by_cases hk : k = key <;> simp [hk]

/-- Taking up one report of the key leaves the others, and the reports of other keys. -/
theorem reportsOf_eraseIdx (key : String) {i : Nat} {k : String} {on : Bool}
    (hi : s.reports[i]? = some (k, on))
    (ht : t.reports = s.reports.eraseIdx i) :
    ∃ a b, s.reportsOf key = a ++ (if k = key then [on] else []) ++ b ∧
    t.reportsOf key = a ++ b := by
  obtain ⟨hlt, hget⟩ := List.getElem?_eq_some_iff.mp hi
  have hsplit : s.reports = s.reports.take i ++ (k, on) :: s.reports.drop (i + 1) := by
    rw [← hget, ← List.drop_eq_getElem_cons hlt, List.take_append_drop]
  refine ⟨((s.reports.take i).filter fun r => r.1 = key).map Prod.snd,
    ((s.reports.drop (i + 1)).filter fun r => r.1 = key).map Prod.snd, ?_, ?_⟩
  · rw [reportsOf]
    conv_lhs => rw [hsplit]
    by_cases hk : k = key <;> simp [hk]
  · rw [reportsOf, ht, List.eraseIdx_eq_take_drop_succ, List.filter_append, List.map_append]

/-- A step that changes no setting of the key, no report and no remembered choice. -/
theorem Agreed.congr (h : Agreed key s)
    (hlatest : ∀ {w}, t.Latest key w → s.Latest key w ∧ t.destinationMode w = s.destinationMode w)
    (hreports : t.reportsOf key = s.reportsOf key)
    (hmap : t.destinationAccountQueue.lookup key = s.destinationAccountQueue.lookup key)
    (hasked : t.lastAsked key = s.lastAsked key) : Agreed key t where
  latest hw := by
    obtain ⟨hold, hmode⟩ := hlatest hw
    rw [hmode, hasked]
    exact h.latest hold
  pending := by
    rw [hreports, hmap, hasked]
    exact h.pending

theorem Agreed.adopt {r : Registry} (h : Agreed key s) (hgrown : s.registry.Grown r)
    (hquiet : r.workerCount ≠ s.registry.workerCount →
      (r.worker s.registry.workerCount).key = key → s.reportsOf key = []) :
    Agreed key (s.adopt c r) := by
  have hkey : ∀ v < s.registry.workerCount, (r.worker v).key = s.keyOf v :=
    fun v hv => congrArg Prod.fst (hgrown.label hv)
  rcases adopt_cases (c := c) hgrown with ⟨hcount, heq⟩ | ⟨hcount, -, heq⟩
  · rw [heq]
    exact h.congr (fun hw => ⟨(latest_congr hcount hkey).mp hw, rfl⟩) rfl rfl rfl
  · rw [heq]
    refine ⟨fun {w} hw => ?_, h.pending⟩
    obtain ⟨hlt, hwkey, hmax⟩ := hw
    rw [workerCount_applyMode] at hlt hmax
    dsimp only at hlt hmax
    simp only [keyOf_applyMode] at hwkey hmax
    by_cases hnew : (r.worker s.registry.workerCount).key = key
    · obtain rfl : w = s.registry.workerCount := by
        have := hmax s.registry.workerCount (by omega) hnew
        omega
      refine (Function.update_self ..).trans ?_
      rw [hnew]
      exact h.remembered (hquiet (by omega) hnew)
    · have hne : w ≠ s.registry.workerCount := by
        rintro rfl
        exact hnew hwkey
      have hold : s.Latest key w := by
        refine ⟨by omega, (hkey w (by omega)).symm.trans hwkey, fun v hv hvkey => ?_⟩
        exact hmax v (by omega) ((hkey v hv).trans hvkey)
      exact (Function.update_of_ne hne ..).trans (h.latest hold)

theorem Agreed.handleDestinationAccountQueue {on : Bool} (h : Agreed key s)
    (hw : w < s.registry.workerCount) (horderly : Orderly c key s (.answer w on)) :
    Agreed key (s.handleDestinationAccountQueue c w on) := by
  have hlatest : ∀ {v}, (s.handleDestinationAccountQueue c w on).Latest key v ↔ s.Latest key v :=
    latest_congr rfl fun _ _ => keyOf_applyMode
  by_cases hk : s.keyOf w = key
  · obtain ⟨hnewest, hquiet⟩ := horderly hk
    have hasked : (s.handleDestinationAccountQueue c w on).lastAsked key = some on := by
      change List.lookup key ((s.keyOf w, on) :: s.answers) = some on
      rw [hk, List.lookup_cons_self]
    refine ⟨fun {v} hv => ?_, ?_⟩
    · obtain ⟨hv, hvkey, hvmax⟩ := hlatest.mp hv
      obtain rfl : v = w := le_antisymm (hnewest.2.2 v hv hvkey) (hvmax w hw hk)
      exact (Function.update_self ..).trans hasked.symm
    · by_cases hsame : s.destinationMode w = some on
      · have hreports : (s.handleDestinationAccountQueue c w on).reports = s.reports :=
          if_pos hsame
        have hlast : s.lastAsked key = some on := (h.latest hnewest).symm.trans hsame
        have hpending := h.pending
        rw [hlast] at hpending
        rw [reportsOf, hreports, hasked]
        exact hpending
      · have hreports : (s.handleDestinationAccountQueue c w on).reports =
            s.reports ++ [(s.keyOf w, on)] := if_neg hsame
        refine .inr ⟨on, ?_, hasked⟩
        rw [reportsOf_append hreports, hquiet hsame, if_pos hk, List.nil_append]
  · refine h.congr (fun {v} hv => ?_) ?_ rfl ?_
    · have hold := hlatest.mp hv
      have hne : v ≠ w := by
        rintro rfl
        exact hk hold.2.1
      exact ⟨hold, Function.update_of_ne hne _ _⟩
    · by_cases hsame : s.destinationMode w = some on
      · have hreports : (s.handleDestinationAccountQueue c w on).reports = s.reports :=
          if_pos hsame
        rw [reportsOf, hreports, reportsOf]
      · have hreports : (s.handleDestinationAccountQueue c w on).reports =
            s.reports ++ [(s.keyOf w, on)] := if_neg hsame
        rw [reportsOf_append hreports, if_neg hk, List.append_nil]
    · change List.lookup key ((s.keyOf w, on) :: s.answers) = _
      rw [List.lookup_cons, beq_eq_false_iff_ne.mpr (Ne.symm hk)]
      rfl

theorem Agreed.remember {i : Nat} {k : String} {on : Bool} (h : Agreed key s)
    (hi : s.reports[i]? = some (k, on)) :
    Agreed key { s with
      destinationAccountQueue := s.destinationAccountQueue.insert k on
      reports := s.reports.eraseIdx i } := by
  refine ⟨h.latest, ?_⟩
  obtain ⟨a, b, hold, hnew⟩ := reportsOf_eraseIdx key hi
    (t := { s with
      destinationAccountQueue := s.destinationAccountQueue.insert k on
      reports := s.reports.eraseIdx i }) rfl
  rw [hnew, Assoc.lookup_insert_ite]
  by_cases hk : k = key
  · rw [if_pos hk] at hold
    rw [if_pos hk.symm]
    rcases h.pending with ⟨hnone, -⟩ | ⟨x, hone, hasked⟩
    · simp [hold] at hnone
    · obtain ⟨rfl, rfl, rfl⟩ : a = [] ∧ b = [] ∧ x = on := by
        rw [hold] at hone
        have hlen := congrArg List.length hone
        simp only [List.length_append, List.length_cons, List.length_nil] at hlen
        obtain rfl := List.length_eq_zero_iff.mp (by omega : a.length = 0)
        obtain rfl := List.length_eq_zero_iff.mp (by omega : b.length = 0)
        simpa using hone.symm
      exact .inl ⟨rfl, hasked.symm⟩
  · rw [if_neg hk, List.append_nil] at hold
    rw [if_neg (Ne.symm hk), ← hold]
    exact h.pending

theorem agreed_step {e : Event} (h : Agreed key s) (horderly : Orderly c key s e)
    (hstep : s.step c e = some t) : Agreed key t := by
  cases stepped_of_step hstep with
  | registry hrun hgrown => exact h.adopt hgrown (horderly _ hrun)
  | @optIn w hw =>
    have hlatest : ∀ {v}, ({ s with senderOptIn := Function.update s.senderOptIn w true }.applyMode
        c w).Latest key v ↔ s.Latest key v := latest_congr rfl fun _ _ => keyOf_applyMode
    exact h.congr (fun hv => ⟨hlatest.mp hv, rfl⟩) rfl rfl rfl
  | noOptIn => exact h
  | answer hw => exact h.handleDestinationAccountQueue hw horderly
  | remember hi => exact h.remember hi

/-- A worker that is created starts in the mode that is remembered for its key. -/
theorem created_mode {e : Registry.Event} (ht : Consistent c t)
    (hnone : s.registry.workers.lookup key = none) (hstep : s.step c (.registry e) = some t)
    (hw : t.registry.workers.lookup key = some w) :
    (t.registry.worker w).accountQueueMode =
      (s.destinationAccountQueue.lookup key).getD c.accountQueueDefault := by
  obtain ⟨hlt, hkey⟩ := ht.sound.workers.entry hw
  rw [ht.tuned hlt]
  cases stepped_of_step hstep with
  | @registry e r hrun hgrown =>
    have hnew : ∀ {w}, r.workers.lookup key = some w → s.registry.workerCount ≤ w := by
      intro w hw
      rcases Registry.lookup_workers_step (Registry.stepped_of_step hrun) hw with hold | ⟨-, hge⟩
      · rw [hnone] at hold
        cases hold
      · exact hge
    rcases adopt_cases (c := c) hgrown with ⟨hcount, heq⟩ | ⟨hcount, -, heq⟩
    · rw [heq] at hlt hw
      have := hnew hw
      dsimp only at hlt
      omega
    · rw [heq] at hlt hw hkey ⊢
      rw [workerCount_applyMode] at hlt
      have hge := hnew hw
      obtain rfl : w = s.registry.workerCount := by
        dsimp only at hlt
        omega
      have hkey' : (r.worker s.registry.workerCount).key = key := keyOf_applyMode.symm.trans hkey
      change ((Function.update s.destinationMode s.registry.workerCount _) _).getD
        (c.accountQueueDefault || Function.update s.senderOptIn s.registry.workerCount false _) = _
      rw [Function.update_self, Function.update_self, hkey', Bool.or_false]

/-- If at one target the answers reach its newest worker, those that change the choice do not
overlap, and no worker is created while one is waiting to be remembered, then whenever none is
waiting the registry remembers what the destination last asked for. Its worker has that choice, and
a worker that is created next starts with it. -/
theorem destination_choice_remembered (c : Routing) (key : String) (es : List Event)
    (s : Destinations) (hrun : Trace.exec (step c) {} es = some s)
    (horderly : Trace.Along (step c) (Orderly c key) {} es) (hquiet : s.reportsOf key = []) :
    s.destinationAccountQueue.lookup key = s.lastAsked key ∧
    (∀ w, s.registry.workers.lookup key = some w →
      s.destinationMode w = s.destinationAccountQueue.lookup key ∧
      ∀ on, s.lastAsked key = some on → (s.registry.worker w).accountQueueMode = on) ∧
    ∀ e t w, s.registry.workers.lookup key = none → s.step c (.registry e) = some t →
      t.registry.workers.lookup key = some w →
      (t.registry.worker w).accountQueueMode = (s.lastAsked key).getD c.accountQueueDefault := by
  have hconsistent : Consistent c s := Trace.exec_always consistent_step consistent_init hrun
  have hagreed : Agreed key s := Trace.exec_invariant agreed_step agreed_init horderly hrun
  have hremembered := hagreed.remembered hquiet
  refine ⟨hremembered, fun w hw => ?_, fun e t w hnone hstep hw => ?_⟩
  · have hmode := hagreed.latest (hconsistent.latest hw)
    refine ⟨hmode.trans hremembered.symm, fun on hon => ?_⟩
    rw [hconsistent.tuned (hconsistent.latest hw).1, hmode, hon]
    rfl
  · have ht : Consistent c t := consistent_step hconsistent hstep
    rw [← hremembered]
    exact created_mode ht hnone hstep hw

open Registry (oneHost jobA jobB)

/-- A worker's only job is handed over and taken from the buffer. -/
def underWay : List Event :=
  [.submit jobA, .resolve "a", .reserve "a" none, .handoff "a", .account "a", .take 0 false].map
    .registry

/-- The job is over and the worker is retired; the next request creates a worker. -/
def recreated : List Event :=
  [.finish 0 "a", .idle 0, .check 0, .onIdle 0, .notify 0, .workerFor jobB].map .registry

/-- The destination asks for one queue per tenant and then for a shared one, and the worker that is
created later shares its queue. -/
theorem choice_survives_retirement :
    ∃ s, Trace.exec (step oneHost) {} (underWay ++
        [.answer 0 true, .remember 0, .answer 0 false, .remember 0] ++ recreated) = some s ∧
      s.registry.workers.lookup "" = some 1 ∧ s.lastAsked "" = some false ∧
      (s.registry.worker 1).accountQueueMode = false := by
  have hrun : ∃ s, Trace.exec (step oneHost) {} (underWay ++
        [.answer 0 true, .remember 0, .answer 0 false, .remember 0] ++ recreated) = some s ∧
      s.registry.workers.lookup "" = some 1 ∧ s.lastAsked "" = some false ∧
      s.reportsOf "" = [] := by
    decide +kernel
  obtain ⟨s, hrun, hworker, hasked, hquiet⟩ := hrun
  have hworkers := (destination_choice_remembered oneHost "" _ s hrun (by decide +kernel)
    hquiet).2.1
  exact ⟨s, hrun, hworker, hasked, (hworkers 1 hworker).2 false hasked⟩

/-- Two answers overlap and are remembered in the other order: the worker has the later choice, the
registry the earlier one, and hearing the later one again changes nothing. Or an attempt hears from
the destination only after its worker is retired and another created: the choice is remembered, and
the worker does not have it. -/
theorem overlapping_answers_misremembered :
    (∃ s, Trace.exec (step oneHost) {} (underWay ++
        [.answer 0 true, .answer 0 false, .remember 1, .remember 0, .answer 0 false]) = some s ∧
      s.reports = [] ∧ s.registry.workers.lookup "" = some 0 ∧ s.destinationMode 0 = some false ∧
      s.lastAsked "" = some false ∧ s.destinationAccountQueue.lookup "" = some true) ∧
    (∃ s, Trace.exec (step oneHost) {} (underWay ++
        [.answer 0 true, .answer 0 false, .remember 1, .remember 0, .answer 0 false] ++
          recreated) = some s ∧
      s.lastAsked "" = some false ∧ s.registry.workers.lookup "" = some 1 ∧
      (s.registry.worker 1).accountQueueMode = true) ∧
    ∃ s, Trace.exec (step oneHost) {} (underWay ++ recreated ++ [.answer 0 false, .remember 0]) =
        some s ∧
      s.reports = [] ∧ s.registry.workers.lookup "" = some 1 ∧ s.destinationMode 1 = none ∧
      s.destinationAccountQueue.lookup "" = some false := by
  decide +kernel

end Destinations

end Aquifer
