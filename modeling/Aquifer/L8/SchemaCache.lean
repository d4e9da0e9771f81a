import Mathlib.Logic.Function.Basic
import Aquifer.Jobs
import Aquifer.Lib.Assoc
import Aquifer.Lib.Trace

/-! The cache of the request schemas that target APIs advertise: lookups that fetch what is missing
or has expired, while entries are swept and invalidated. -/
namespace Aquifer.L8

/-- Nanoseconds. -/
def schemaTTL : Time := 600000000000
def schemaNegativeTTL : Time := 60000000000
def schemaMinRefetchAge : Time := 10000000000

/-- What `load` reads of the metadata. -/
structure SchemaMeta (σ : Type) where
  schemaHash : String
  requestSchemas : List (String × σ)

/-- An entry, `ready` once its channel is closed. -/
structure SchemaEntry (ρ : Type) where
  ready : Bool := false
  hash : String := ""
  routes : List (String × ρ) := []
  fetchedAt : Time := 0
  expiresAt : Time := 0

/-- Where a `get` stands: waiting for an entry that another one loads; with an entry of its own,
before, during and after the fetch; returned. -/
inductive GetStage
  | waiting
  | created
  | fetching
  | loaded
  | returned
deriving DecidableEq

/-- A call of `get`, with the time at which it looked and the entry it found, as it was then. -/
structure Get (ρ : Type) where
  domain : String
  lookedAt : Time
  found : Option (Nat × SchemaEntry ρ)
  entry : Nat
  stage : GetStage

/-- Entries are numbered in the order they are created; the map has the current one of each
domain. -/
structure SchemaCache (ρ : Type) where
  minRefetchAge : Int := schemaMinRefetchAge
  now : Time := 0
  entries : Assoc String Nat := ∅
  entry : Nat → SchemaEntry ρ := fun _ => {}
  count : Nat := 0
  calls : Assoc Nat (Get ρ) := ∅

inductive SchemaEvent (σ : Type)
  | advance (d : Nat)
  | get (k : Nat) (domain : String)
  | load (k : Nat)
  /-- The fetch returns with the metadata or an error. -/
  | fetched (k : Nat) (metadata : Option (SchemaMeta σ))
  | close (k : Nat)
  | wake (k : Nat)
  | sweep (now : Time)
  | invalidateIfStale (domain hash : String)

/-- The part of a `get` that loads an entry. -/
def GetStage.loading : GetStage → Bool
  | .created | .fetching | .loaded => true
  | .waiting | .returned => false

namespace SchemaCache

variable {σ ρ : Type}

section Model

variable (compileRouteSchemas : List (String × σ) → Option (List (String × ρ))) (s : SchemaCache ρ)

def setEntry (e : Nat) (x : SchemaEntry ρ) : SchemaCache ρ :=
  { s with entry := Function.update s.entry e x }

def setCall (k : Nat) (x : Get ρ) : SchemaCache ρ := { s with calls := s.calls.insert k x }

/-- What a look finds: the current entry of the domain, as it is now. -/
def found (domain : String) : Option (Nat × SchemaEntry ρ) :=
  (s.entries.lookup domain).map fun e => (e, s.entry e)

/-- A call publishes an entry to load. -/
def create (k : Nat) (domain : String) : SchemaCache ρ :=
  { s with
    entries := s.entries.insert domain s.count
    entry := Function.update s.entry s.count {}
    count := s.count + 1 }.setCall k ⟨domain, s.now, s.found domain, s.count, .created⟩

/-- `get` up to the release of the lock. -/
def look (k : Nat) (domain : String) : SchemaCache ρ :=
  match s.found domain with
  | none => s.create k domain
  | some (e, x) =>
    if x.ready then
      if s.now < x.expiresAt then
        s.setCall k ⟨domain, s.now, s.found domain, e, .returned⟩
      else s.create k domain
    else s.setCall k ⟨domain, s.now, s.found domain, e, .waiting⟩

/-- `load` after the fetch. -/
def loadResult (x : SchemaEntry ρ) (metadata : Option (SchemaMeta σ)) : SchemaEntry ρ :=
  match metadata with
  | none => x
  | some m =>
    if m.requestSchemas = [] then x
    else if m.schemaHash = "" then x
    else
      match compileRouteSchemas m.requestSchemas with
      | none => x
      | some routes => { x with hash := m.schemaHash, routes, expiresAt := x.fetchedAt + schemaTTL }

/-- The entry is ready and has expired. -/
def swept (now : Time) (e : Nat) : Bool := (s.entry e).ready && !(now < (s.entry e).expiresAt)

/-- `invalidateIfStale` deletes the domain's entry. -/
def stale (domain hash : String) : Bool :=
  (s.entries.lookup domain).any fun e =>
    (s.entry e).ready && (s.entry e).hash ≠ hash &&
      !(s.now - (s.entry e).fetchedAt < s.minRefetchAge)

def invalidateIfStale (domain hash : String) : SchemaCache ρ × Bool :=
  if s.stale domain hash then ({ s with entries := s.entries.erase domain }, true) else (s, false)

def step : SchemaEvent σ → Option (SchemaCache ρ)
  | .advance d => some { s with now := s.now + d }
  | .get k domain => if (s.calls.lookup k).isNone then some (s.look k domain) else none
  | .load k =>
    match s.calls.lookup k with
    | some x =>
      if x.stage = .created then
        some ((s.setEntry x.entry { s.entry x.entry with
          fetchedAt := s.now
          expiresAt := s.now + schemaNegativeTTL }).setCall k { x with stage := .fetching })
      else none
    | none => none
  | .fetched k metadata =>
    match s.calls.lookup k with
    | some x =>
      if x.stage = .fetching then
        some ((s.setEntry x.entry
          (loadResult compileRouteSchemas (s.entry x.entry) metadata)).setCall k
            { x with stage := .loaded })
      else none
    | none => none
  | .close k =>
    match s.calls.lookup k with
    | some x =>
      if x.stage = .loaded then
        some ((s.setEntry x.entry { s.entry x.entry with ready := true }).setCall k
          { x with stage := .returned })
      else none
    | none => none
  | .wake k =>
    match s.calls.lookup k with
    | some x =>
      if x.stage = .waiting ∧ (s.entry x.entry).ready then
        some (s.setCall k { x with stage := .returned })
      else none
    | none => none
  | .sweep now => some { s with entries := s.entries.keep fun _ e => !s.swept now e }
  | .invalidateIfStale domain hash => some (s.invalidateIfStale domain hash).1

end Model

end SchemaCache

namespace Get

variable {ρ : Type} (x : Get ρ)

/-- The call returns the entry it found, which was loaded and had not expired. -/
def Unexpired : Prop :=
  ∃ y, x.found = some (x.entry, y) ∧ y.ready = true ∧ x.lookedAt < y.expiresAt

/-- The call found its entry while it was being loaded. -/
def Joined : Prop := ∃ y, x.found = some (x.entry, y) ∧ y.ready = false

/-- The entry is the call's own: it found none, or one that had expired. -/
def Started : Prop :=
  ∀ p ∈ x.found, p.1 ≠ x.entry ∧ p.2.ready = true ∧ ¬ x.lookedAt < p.2.expiresAt

/-- What a call may do with what it found. -/
def Fair : Prop :=
  match x.stage with
  | .waiting => x.Joined
  | .created | .fetching | .loaded => x.Started
  | .returned => x.Unexpired ∨ x.Joined ∨ x.Started

variable {x}

theorem Fair.started (h : x.Fair) (hx : x.stage.loading = true) : x.Started := by
  unfold Fair at h
  split at h
  · next hstage => simp [hstage, GetStage.loading] at hx
  · exact h
  · exact h
  · exact h
  · next hstage => simp [hstage, GetStage.loading] at hx

theorem Started.fair {stage : GetStage} (h : x.Started) (hstage : stage ≠ .waiting) :
    ({ x with stage } : Get ρ).Fair := by
  cases stage with
  | waiting => exact absurd rfl hstage
  | created | fetching | loaded => exact h
  | returned => exact .inr (.inr h)

end Get

namespace SchemaCache

variable {σ ρ : Type} {compileRouteSchemas : List (String × σ) → Option (List (String × ρ))}
  {metadata : Option (SchemaMeta σ)} {s t : SchemaCache ρ} {k k' : Nat} {x x' : Get ρ}
  {ev : SchemaEvent σ} {e : Nat} {stage : GetStage} {domain : String}

/-- A call and the entries it knows: one it loads is the current one of its domain and not ready,
one it has returned is ready, and one it found ready is as it was. -/
structure CallSound (s : SchemaCache ρ) (x : Get ρ) : Prop where
  entry_lt : x.entry < s.count
  found_lt : ∀ p ∈ x.found, p.1 < s.count
  loading : x.stage.loading = true →
    s.entries.lookup x.domain = some x.entry ∧ (s.entry x.entry).ready = false
  returned : x.stage = .returned → (s.entry x.entry).ready = true
  kept : ∀ p ∈ x.found, p.2.ready = true → s.entry p.1 = p.2
  fair : x.Fair

/-- Besides, every entry that is not ready is loaded by exactly one call. -/
structure Sound (s : SchemaCache ρ) : Prop where
  current_lt : ∀ {d e}, s.entries.lookup d = some e → e < s.count
  call : ∀ {k x}, s.calls.lookup k = some x → CallSound s x
  unique : ∀ {k k' x x'}, s.calls.lookup k = some x → s.calls.lookup k' = some x' →
    x.stage.loading = true → x'.stage.loading = true → x.entry = x'.entry → k = k'
  loader : ∀ {e}, e < s.count → (s.entry e).ready = false →
    ∃ k x, s.calls.lookup k = some x ∧ x.stage.loading = true ∧ x.entry = e

theorem sound_init (minRefetchAge : Int) : Sound ({ minRefetchAge } : SchemaCache ρ) where
  current_lt h := by cases h
  call h := by cases h
  unique h := by cases h
  loader h := absurd h (Nat.not_lt_zero _)

/-- A call is unaffected by steps that leave ready entries and the entry it loads alone. -/
theorem CallSound.mono (h : CallSound s x) (hcount : s.count ≤ t.count)
    (hready : ∀ e < s.count, (s.entry e).ready = true → t.entry e = s.entry e)
    (hloading : x.stage.loading = true →
      t.entries.lookup x.domain = some x.entry ∧ (t.entry x.entry).ready = false) :
    CallSound t x where
  __ := h
  entry_lt := h.entry_lt.trans_le hcount
  found_lt p hp := (h.found_lt p hp).trans_le hcount
  loading := hloading
  returned hx := by
    rw [hready _ h.entry_lt (h.returned hx)]
    exact h.returned hx
  kept p hp hp2 := by
    have hsame := h.kept p hp hp2
    rw [hready _ (h.found_lt p hp) (hsame ▸ hp2), hsame]

theorem lookup_setCall : (s.setCall k x).calls.lookup k' =
    if k' = k then some x else s.calls.lookup k' := Assoc.lookup_insert_ite

@[simp] theorem lookup_setCall_self : (s.setCall k x).calls.lookup k = some x := by
  rw [lookup_setCall, if_pos rfl]

theorem lookup_setCall_cases (h : (s.setCall k x).calls.lookup k' = some x') :
    k' = k ∧ x' = x ∨ k' ≠ k ∧ s.calls.lookup k' = some x' := by
  rw [lookup_setCall] at h
  split at h
  · next heq => exact .inl ⟨heq, (Option.some.inj h).symm⟩
  · next hne => exact .inr ⟨hne, h⟩

/-- The call moves on, with an unready entry if it loads it, while the others keep theirs. -/
theorem Sound.setCall (h : Sound s) (hcurrent : ∀ {d e}, t.entries.lookup d = some e → e < t.count)
    (hcalls : t.calls = s.calls) (hx : CallSound t x)
    (hothers : ∀ {j y}, j ≠ k → s.calls.lookup j = some y → CallSound t y ∧
      (y.stage.loading = true → x.stage.loading = true → y.entry ≠ x.entry))
    (hloader : ∀ {e}, e < t.count → (t.entry e).ready = false →
      x.stage.loading = true ∧ x.entry = e ∨ ∃ j y, j ≠ k ∧ s.calls.lookup j = some y ∧
        y.stage.loading = true ∧ y.entry = e) : Sound (t.setCall k x) where
  current_lt := hcurrent
  call hj := by
    rcases lookup_setCall_cases hj with ⟨-, rfl⟩ | ⟨hne, hj⟩
    · exact hx.mono le_rfl (fun _ _ _ => rfl) hx.loading
    · rw [hcalls] at hj
      have hy := (hothers hne hj).1
      exact hy.mono le_rfl (fun _ _ _ => rfl) hy.loading
  unique hj hj' hy hy' heq := by
    rcases lookup_setCall_cases hj with ⟨hk, rfl⟩ | ⟨hne, hold⟩ <;>
      rcases lookup_setCall_cases hj' with ⟨hk', rfl⟩ | ⟨hne', hold'⟩
    · rw [hk, hk']
    · rw [hcalls] at hold'
      exact absurd heq.symm ((hothers hne' hold').2 hy' hy)
    · rw [hcalls] at hold
      exact absurd heq ((hothers hne hold).2 hy hy')
    · rw [hcalls] at hold hold'
      exact h.unique hold hold' hy hy' heq
  loader he hready := by
    rcases hloader he hready with ⟨hloading, rfl⟩ | ⟨j, y, hne, hj, hy, rfl⟩
    · exact ⟨k, x, lookup_setCall_self, hloading, rfl⟩
    · refine ⟨j, y, ?_, hy, rfl⟩
      rw [lookup_setCall, if_neg hne, hcalls]
      exact hj

/-- A call that loads an entry goes on with it: it is still loading, or the entry is ready. -/
theorem Sound.proceed {z : SchemaEntry ρ} (h : Sound s) (hx : s.calls.lookup k = some x)
    (hloading : x.stage.loading = true)
    (hz : z.ready = false ∧ stage.loading = true ∨ z.ready = true ∧ stage = .returned) :
    Sound ((s.setEntry x.entry z).setCall k { x with stage }) := by
  have hsound := h.call hx
  obtain ⟨hcurrent, hunready⟩ := hsound.loading hloading
  have hself : (s.setEntry x.entry z).entry x.entry = z := Function.update_self ..
  have hother : ∀ {e}, e ≠ x.entry → (s.setEntry x.entry z).entry e = s.entry e :=
    fun hne => Function.update_of_ne hne ..
  have hready : ∀ e < s.count, (s.entry e).ready = true →
      (s.setEntry x.entry z).entry e = s.entry e := by
    intro e _ he
    refine hother ?_
    rintro rfl
    rw [hunready] at he
    cases he
  have hentry : ∀ {j y}, j ≠ k → s.calls.lookup j = some y → y.stage.loading = true →
      y.entry ≠ x.entry :=
    fun hne hj hy heq => hne (h.unique hj hx hy hloading heq)
  refine h.setCall h.current_lt rfl ?_ (fun {j y} hne hj => ⟨?_, fun hy _ => hentry hne hj hy⟩) ?_
  · refine ⟨hsound.entry_lt, hsound.found_lt, fun hstage => ?_, fun hstage => ?_,
      fun p hp hp2 => ?_, ?_⟩
    · rw [hself]
      refine ⟨hcurrent, (hz.resolve_right fun hdone => ?_).1⟩
      rw [hdone.2] at hstage
      cases hstage
    · rw [hself]
      refine (hz.resolve_left fun hmore => ?_).1
      rw [show stage = _ from hstage] at hmore
      cases hmore.2
    · have hsame := hsound.kept p hp hp2
      rw [hready _ (hsound.found_lt p hp) (hsame ▸ hp2), hsame]
    · refine (hsound.fair.started hloading).fair ?_
      rintro rfl
      rcases hz with ⟨-, hstage⟩ | ⟨-, hstage⟩ <;> cases hstage
  · refine (h.call hj).mono le_rfl hready fun hy => ?_
    rw [hother (hentry hne hj hy)]
    exact (h.call hj).loading hy
  · intro e he hunready'
    by_cases heq : e = x.entry
    · subst heq
      rw [hself] at hunready'
      refine .inl ⟨(hz.resolve_right fun hdone => ?_).2, rfl⟩
      rw [hdone.1] at hunready'
      cases hunready'
    · rw [hother heq] at hunready'
      obtain ⟨j, y, hj, hy, rfl⟩ := h.loader he hunready'
      refine .inr ⟨j, y, ?_, hj, hy, rfl⟩
      rintro rfl
      rw [hx] at hj
      cases hj
      exact heq rfl

/-- An entry that is not ready is loaded by a call other than one that loads nothing. -/
theorem Sound.loader_ne (h : Sound s) (hk : ∀ x ∈ s.calls.lookup k, x.stage.loading = false)
    (he : e < s.count) (hunready : (s.entry e).ready = false) :
    ∃ j y, j ≠ k ∧ s.calls.lookup j = some y ∧ y.stage.loading = true ∧ y.entry = e := by
  obtain ⟨j, y, hj, hy, hentry⟩ := h.loader he hunready
  refine ⟨j, y, ?_, hj, hy, hentry⟩
  rintro rfl
  rw [hk y hj] at hy
  cases hy

theorem mem_found {p : Nat × SchemaEntry ρ} :
    p ∈ s.found domain ↔ s.entries.lookup domain = some p.1 ∧ p.2 = s.entry p.1 := by
  unfold found
  rw [Option.mem_def, Option.map_eq_some_iff]
  constructor
  · rintro ⟨e, he, rfl⟩
    exact ⟨he, rfl⟩
  · rintro ⟨he, hp⟩
    exact ⟨p.1, he, Prod.ext rfl hp.symm⟩

theorem Sound.join (h : Sound s) (hk : s.calls.lookup k = none)
    (he : s.entries.lookup domain = some e)
    (hstage : stage = .returned ∧ (s.entry e).ready = true ∧ s.now < (s.entry e).expiresAt ∨
      stage = .waiting ∧ (s.entry e).ready = false) :
    Sound (s.setCall k ⟨domain, s.now, s.found domain, e, stage⟩) := by
  have hnot : stage.loading = false := by
    rcases hstage with ⟨rfl, -⟩ | ⟨rfl, -⟩ <;> rfl
  have hfound : s.found domain = some (e, s.entry e) := mem_found.mpr ⟨he, rfl⟩
  refine h.setCall h.current_lt rfl ?_ (fun {j y} _ hj => ⟨h.call hj, fun _ hloading => ?_⟩) ?_
  · refine ⟨h.current_lt he, fun p hp => h.current_lt (mem_found.mp hp).1, fun hloading => ?_,
      fun hreturned => ?_, fun p hp _ => (mem_found.mp hp).2.symm, ?_⟩
    · rw [hnot] at hloading
      cases hloading
    · rcases hstage with ⟨-, hready, -⟩ | ⟨rfl, -⟩
      · exact hready
      · cases hreturned
    · rcases hstage with ⟨rfl, hready, hlive⟩ | ⟨rfl, hunready⟩
      · exact .inl ⟨s.entry e, hfound, hready, hlive⟩
      · exact ⟨s.entry e, hfound, hunready⟩
  · rw [hnot] at hloading
    cases hloading
  · exact fun he' hunready => .inr (h.loader_ne (by simp [hk]) he' hunready)

/-- A call that starts a load of its own, where there is no entry or one that is ready. -/
theorem Sound.create (h : Sound s) (hk : s.calls.lookup k = none)
    (hgone : ∀ p ∈ s.found domain, p.2.ready = true ∧ ¬ s.now < p.2.expiresAt) :
    Sound (s.create k domain) := by
  have hsame : ∀ {e}, e < s.count → Function.update s.entry s.count {} e = s.entry e :=
    fun he => Function.update_of_ne he.ne ..
  have hfound : ∀ p ∈ s.found domain, p.1 < s.count := fun p hp => h.current_lt (mem_found.mp hp).1
  refine h.setCall ?_ rfl ?_ (fun {j y} _ hj => ⟨?_, fun _ _ => ((h.call hj).entry_lt).ne⟩) ?_
  · intro d e he
    rw [Assoc.lookup_insert_ite] at he
    split at he
    · cases he
      exact Nat.lt_succ_self _
    · exact (h.current_lt he).trans (Nat.lt_succ_self _)
  · refine ⟨Nat.lt_succ_self _, fun p hp => (hfound p hp).trans (Nat.lt_succ_self _), fun _ => ?_,
      fun hreturned => ?_, fun p hp _ => ?_, fun p hp => ?_⟩
    · rw [Assoc.lookup_insert_ite, if_pos rfl]
      exact ⟨rfl, congrArg SchemaEntry.ready (Function.update_self s.count _ s.entry)⟩
    · cases hreturned
    · exact (hsame (hfound p hp)).trans (mem_found.mp hp).2.symm
    · exact ⟨(hfound p hp).ne, hgone p hp⟩
  · have hy := h.call hj
    refine hy.mono (Nat.le_succ _) (fun e he _ => hsame he) fun hloading => ?_
    obtain ⟨hcurrent, hunready⟩ := hy.loading hloading
    -- the current entry of the domain is not being loaded
    have hdomain : y.domain ≠ domain := by
      rintro rfl
      have hready := (hgone (y.entry, s.entry y.entry) (mem_found.mpr ⟨hcurrent, rfl⟩)).1
      rw [hunready] at hready
      cases hready
    rw [Assoc.lookup_insert_ite, if_neg hdomain]
    exact ⟨hcurrent, (congrArg SchemaEntry.ready (hsame hy.entry_lt)).trans hunready⟩
  · intro e he hunready
    rcases Nat.lt_succ_iff_lt_or_eq.mp he with hlt | rfl
    · have hold := (congrArg SchemaEntry.ready (hsame hlt)).symm.trans hunready
      exact .inr (h.loader_ne (by simp [hk]) hlt hold)
    · exact .inl ⟨rfl, rfl⟩

theorem Sound.wake (h : Sound s) (hx : s.calls.lookup k = some x) (hstage : x.stage = .waiting)
    (hready : (s.entry x.entry).ready = true) :
    Sound (s.setCall k { x with stage := .returned }) := by
  have hsound := h.call hx
  have hjoined : x.Joined := by
    have hfair := hsound.fair
    rw [Get.Fair, hstage] at hfair
    exact hfair
  refine h.setCall h.current_lt rfl ?_ (fun _ hj => ⟨h.call hj, fun _ hloading => ?_⟩) ?_
  · refine { hsound with
      loading := fun hloading => ?_
      returned := fun _ => hready
      fair := .inr (.inl hjoined) }
    cases hloading
  · cases hloading
  · refine fun he hunready => .inr (h.loader_ne (fun y hy => ?_) he hunready)
    cases hx.symm.trans hy
    rw [hstage]
    rfl

theorem Sound.look (h : Sound s) (hk : s.calls.lookup k = none) :
    Sound (s.look k domain) := by
  unfold SchemaCache.look
  split
  · next hnone =>
    refine h.create hk fun p hp => ?_
    rw [hnone] at hp
    cases hp
  · next e x hfound =>
    obtain ⟨he, hx⟩ := mem_found.mp hfound
    dsimp only at he hx
    subst hx
    split_ifs with hready hlive
    · exact h.join hk he (.inl ⟨rfl, hready, hlive⟩)
    · refine h.create hk fun p hp => ?_
      cases hfound.symm.trans hp
      exact ⟨hready, hlive⟩
    · exact h.join hk he (.inr ⟨rfl, by simpa using hready⟩)

theorem Sound.drop {m : Assoc String Nat} (h : Sound s)
    (hsub : ∀ {d e}, m.lookup d = some e → s.entries.lookup d = some e)
    (hkeep : ∀ {d e}, s.entries.lookup d = some e → (s.entry e).ready = false →
      m.lookup d = some e) : Sound { s with entries := m } where
  __ := h
  current_lt he := h.current_lt (hsub he)
  call hj := by
    have hy := h.call hj
    refine hy.mono le_rfl (fun _ _ _ => rfl) fun hloading => ?_
    obtain ⟨hcurrent, hunready⟩ := hy.loading hloading
    exact ⟨hkeep hcurrent hunready, hunready⟩

theorem Sound.sweep {now : Time} (h : Sound s) :
    Sound { s with entries := s.entries.keep fun _ e => !s.swept now e } := by
  refine h.drop (fun he => ?_) fun he hunready => ?_
  · rw [Assoc.lookup_keep, Option.filter_eq_some_iff] at he
    exact he.1
  · rw [Assoc.lookup_keep, Option.filter_eq_some_iff]
    exact ⟨he, by simp [swept, hunready]⟩

theorem Sound.invalidate {hash : String} (h : Sound s) (hstale : s.stale domain hash = true) :
    Sound { s with entries := s.entries.erase domain } := by
  refine h.drop (fun he => ?_) fun {d e} he hunready => ?_
  · rw [Assoc.lookup_erase_ite, Option.ite_none_left_eq_some] at he
    exact he.2
  · rw [Assoc.lookup_erase_ite, if_neg]
    · exact he
    · rintro rfl
      simp [stale, he, hunready] at hstale

theorem loadResult_ready (x : SchemaEntry ρ) (metadata : Option (SchemaMeta σ)) :
    (loadResult compileRouteSchemas x metadata).ready = x.ready := by
  unfold loadResult
  repeat' split
  all_goals rfl

theorem call_of_step {f : Get ρ → SchemaCache ρ} {p : Get ρ → Prop} [DecidablePred p]
    (h : (match s.calls.lookup k with
      | some x => if p x then some (f x) else none
      | none => none) = some t) : ∃ x, s.calls.lookup k = some x ∧ p x ∧ t = f x := by
  split at h
  · next x hx =>
    obtain ⟨hp, ⟨⟩⟩ := Option.ite_none_right_eq_some.mp h
    exact ⟨x, hx, hp, rfl⟩
  · cases h

theorem sound_step (h : Sound s) (hstep : s.step compileRouteSchemas ev = some t) : Sound t := by
  cases ev with
  | advance d =>
    cases hstep
    exact { h with
      call := fun hj => (h.call hj).mono le_rfl (fun _ _ _ => rfl) (h.call hj).loading }
  | get k domain =>
    simp only [step, Option.ite_none_right_eq_some, Option.isNone_iff_eq_none] at hstep
    obtain ⟨hk, ⟨⟩⟩ := hstep
    exact h.look hk
  | load k =>
    obtain ⟨x, hx, hstage, rfl⟩ := call_of_step hstep
    have hloading : x.stage.loading = true := by rw [hstage]; rfl
    exact h.proceed hx hloading (.inl ⟨((h.call hx).loading hloading).2, rfl⟩)
  | fetched k metadata =>
    obtain ⟨x, hx, hstage, rfl⟩ := call_of_step hstep
    have hloading : x.stage.loading = true := by rw [hstage]; rfl
    refine h.proceed hx hloading (.inl ⟨?_, rfl⟩)
    exact (loadResult_ready _ _).trans ((h.call hx).loading hloading).2
  | close k =>
    obtain ⟨x, hx, hstage, rfl⟩ := call_of_step hstep
    exact h.proceed hx (by rw [hstage]; rfl) (.inr ⟨rfl, rfl⟩)
  | wake k =>
    obtain ⟨x, hx, ⟨hstage, hready⟩, rfl⟩ := call_of_step hstep
    exact h.wake hx hstage hready
  | sweep now =>
    cases hstep
    exact h.sweep
  | invalidateIfStale domain hash =>
    simp only [step, invalidateIfStale] at hstep
    split at hstep
    · next hstale =>
      cases hstep
      exact h.invalidate hstale
    · cases hstep
      exact h

/-! ### Every entry has a load of its domain -/

/-- A call for the domain has started the load of the entry. -/
def Loaded (s : SchemaCache ρ) (domain : String) (e : Nat) : Prop :=
  ∃ k x, s.calls.lookup k = some x ∧ x.domain = domain ∧ x.entry = e ∧ x.Started

/-- The current entry of a domain and the entry of a call have been loaded for the domain. -/
structure Owned (s : SchemaCache ρ) : Prop where
  current : ∀ {d e}, s.entries.lookup d = some e → s.Loaded d e
  call : ∀ {k x}, s.calls.lookup k = some x → s.Loaded x.domain x.entry

/-- The calls that there are only move on. -/
def Moves (s t : SchemaCache ρ) : Prop :=
  ∀ k x, s.calls.lookup k = some x → ∃ stage, t.calls.lookup k = some { x with stage }

theorem Loaded.moves {d : String} (h : s.Loaded d e) (hmoves : Moves s t) : t.Loaded d e := by
  obtain ⟨k, x, hx, hdomain, hentry, hstarted⟩ := h
  obtain ⟨stage, hstage⟩ := hmoves k x hx
  exact ⟨k, _, hstage, hdomain, hentry, hstarted⟩

theorem moves_setCall_of_none (hk : s.calls.lookup k = none) (hcalls : t.calls = s.calls) :
    Moves s (t.setCall k x) := by
  intro j y hj
  refine ⟨y.stage, ?_⟩
  have hne : j ≠ k := by
    rintro rfl
    rw [hk] at hj
    cases hj
  rw [lookup_setCall, if_neg hne, hcalls]
  exact hj

theorem moves_setCall (hx : s.calls.lookup k = some x) (hcalls : t.calls = s.calls) :
    Moves s (t.setCall k { x with stage }) := by
  intro j y hj
  by_cases heq : j = k
  · subst heq
    cases hx.symm.trans hj
    exact ⟨stage, lookup_setCall_self⟩
  · refine ⟨y.stage, ?_⟩
    rw [lookup_setCall, if_neg heq, hcalls]
    exact hj

/-- A step that moves one call on and leaves the map alone. -/
theorem Owned.proceed (h : Owned s) (hx : s.calls.lookup k = some x) (hcalls : t.calls = s.calls)
    (hentries : t.entries = s.entries) :
    Owned (t.setCall k { x with stage }) where
  current he := (h.current (hentries ▸ he)).moves (moves_setCall hx hcalls)
  call hj := by
    rcases lookup_setCall_cases hj with ⟨-, rfl⟩ | ⟨-, hj⟩
    · exact (h.call hx).moves (moves_setCall hx hcalls)
    · exact (h.call (hcalls ▸ hj)).moves (moves_setCall hx hcalls)

theorem Owned.join {now : Time} {found : Option (Nat × SchemaEntry ρ)} (h : Owned s)
    (hk : s.calls.lookup k = none) (he : s.entries.lookup domain = some e) :
    Owned (s.setCall k ⟨domain, now, found, e, stage⟩) where
  current he := (h.current he).moves (moves_setCall_of_none hk rfl)
  call hj := by
    rcases lookup_setCall_cases hj with ⟨-, rfl⟩ | ⟨-, hj⟩
    · exact (h.current he).moves (moves_setCall_of_none hk rfl)
    · exact (h.call hj).moves (moves_setCall_of_none hk rfl)

theorem Owned.create (h : Owned s) (hsound : Sound (s.create k domain))
    (hk : s.calls.lookup k = none) : Owned (s.create k domain) := by
  have hmoves : Moves s (s.create k domain) := moves_setCall_of_none hk rfl
  have hcall : (s.create k domain).calls.lookup k =
      some ⟨domain, s.now, s.found domain, s.count, .created⟩ := lookup_setCall_self
  have hnew : (s.create k domain).Loaded domain s.count :=
    ⟨k, _, hcall, rfl, rfl, (hsound.call hcall).fair.started rfl⟩
  refine ⟨fun {d e} he => ?_, fun hj => ?_⟩
  · have he := Assoc.lookup_insert_ite.symm.trans he
    split at he
    · next heq =>
      cases he
      exact heq ▸ hnew
    · exact (h.current he).moves hmoves
  · rcases lookup_setCall_cases hj with ⟨-, rfl⟩ | ⟨-, hj⟩
    · exact hnew
    · exact (h.call hj).moves hmoves

/-- A look starts a load or takes up the current entry. -/
theorem look_cases (k : Nat) (domain : String) : s.look k domain = s.create k domain ∨
    ∃ e stage, s.entries.lookup domain = some e ∧
      s.look k domain = s.setCall k ⟨domain, s.now, s.found domain, e, stage⟩ := by
  unfold look
  split
  · exact .inl rfl
  · next e x hfound =>
    have he := (mem_found.mp hfound).1
    split_ifs
    · exact .inr ⟨e, _, he, rfl⟩
    · exact .inl rfl
    · exact .inr ⟨e, _, he, rfl⟩

theorem owned_step (h : Sound s ∧ Owned s) (hstep : s.step compileRouteSchemas ev = some t) :
    Owned t := by
  obtain ⟨hsound, h⟩ := h
  have ht := sound_step hsound hstep
  cases ev with
  | advance d =>
    cases hstep
    exact { h with }
  | get k domain =>
    simp only [step, Option.ite_none_right_eq_some, Option.isNone_iff_eq_none] at hstep
    obtain ⟨hk, ⟨⟩⟩ := hstep
    rcases look_cases k domain with heq | ⟨e, stage, he, heq⟩
    · rw [heq] at ht ⊢
      exact h.create ht hk
    · rw [heq]
      exact h.join hk he
  | load k | fetched k metadata | close k | wake k =>
    obtain ⟨x, hx, -, rfl⟩ := call_of_step hstep
    exact h.proceed hx rfl rfl
  | sweep now =>
    cases hstep
    refine ⟨fun he => ?_, h.call⟩
    rw [Assoc.lookup_keep, Option.filter_eq_some_iff] at he
    exact h.current he.1
  | invalidateIfStale domain hash =>
    simp only [step, invalidateIfStale] at hstep
    split at hstep
    · cases hstep
      refine ⟨fun he => ?_, h.call⟩
      rw [Assoc.lookup_erase_ite, Option.ite_none_left_eq_some] at he
      exact h.current he.2
    · cases hstep
      exact h

/-! ### Every call can return -/

/-- Every fetch that returns in the run returns `metadata`. -/
def Returning (metadata : Option (SchemaMeta σ)) (es : List (SchemaEvent σ)) : Prop :=
  ∀ k m, .fetched k m ∈ es → m = metadata

/-- The call's load can be finished by its own steps when its fetch returns `metadata`. -/
def Finishes (compileRouteSchemas : List (String × σ) → Option (List (String × ρ)))
    (metadata : Option (SchemaMeta σ)) (s : SchemaCache ρ) (k : Nat) (x : Get ρ) : Prop :=
  ∃ es t, Trace.exec (step compileRouteSchemas) s es = some t ∧ Returning metadata es ∧
    t.calls.lookup k = some { x with stage := .returned } ∧ (t.entry x.entry).ready = true ∧
    ∀ j, j ≠ k → t.calls.lookup j = s.calls.lookup j

theorem Finishes.of_step {z : SchemaEntry ρ}
    (hstep : s.step compileRouteSchemas ev =
      some ((s.setEntry e z).setCall k { x with stage }))
    (hev : ∀ j m, ev = .fetched j m → m = metadata)
    (h : Finishes compileRouteSchemas metadata ((s.setEntry e z).setCall k { x with stage }) k
      { x with stage }) : Finishes compileRouteSchemas metadata s k x := by
  obtain ⟨es, t, hrun, hfetch, hcall, hready, hothers⟩ := h
  refine ⟨ev :: es, t, Trace.exec_cons.mpr ⟨_, hstep, hrun⟩, fun j m hmem => ?_, hcall, hready,
    fun j hne => ?_⟩
  · rcases List.mem_cons.mp hmem with heq | hmem
    · exact hev j m heq.symm
    · exact hfetch j m hmem
  · rw [hothers j hne, lookup_setCall, if_neg hne]
    rfl

theorem finishes_loaded (hx : s.calls.lookup k = some x) (hstage : x.stage = .loaded) :
    Finishes compileRouteSchemas metadata s k x := by
  refine ⟨[.close k], (s.setEntry x.entry { s.entry x.entry with ready := true }).setCall k
    { x with stage := .returned }, Trace.exec_cons.mpr ⟨_, ?_, rfl⟩, fun j m hmem => ?_, ?_, ?_,
    fun j hne => ?_⟩
  · simp only [step, hx, hstage, if_true]
  · cases List.mem_singleton.mp hmem
  · exact lookup_setCall_self
  · exact congrArg SchemaEntry.ready (Function.update_self x.entry _ s.entry)
  · rw [lookup_setCall, if_neg hne]
    rfl

theorem finishes_fetching (hx : s.calls.lookup k = some x) (hstage : x.stage = .fetching) :
    Finishes compileRouteSchemas metadata s k x := by
  have hstep : s.step compileRouteSchemas (.fetched k metadata) =
      some ((s.setEntry x.entry (loadResult compileRouteSchemas (s.entry x.entry) metadata)).setCall
        k
        { x with stage := .loaded }) := by simp only [step, hx, hstage, if_true]
  refine .of_step hstep (fun j m heq => ?_) (finishes_loaded lookup_setCall_self rfl)
  cases heq
  rfl

theorem finishes_loading (hx : s.calls.lookup k = some x) (hloading : x.stage.loading = true) :
    Finishes compileRouteSchemas metadata s k x := by
  cases hstage : x.stage with
  | created =>
    have hstep : s.step compileRouteSchemas (.load k) =
        some ((s.setEntry x.entry { s.entry x.entry with
          fetchedAt := s.now
          expiresAt := s.now + schemaNegativeTTL }).setCall k { x with stage := .fetching }) := by
      simp only [step, hx, hstage, if_true]
    refine .of_step hstep (fun j m heq => ?_) (finishes_fetching lookup_setCall_self rfl)
    cases heq
  | fetching => exact finishes_fetching hx hstage
  | loaded => exact finishes_loaded hx hstage
  | waiting | returned =>
    rw [hstage] at hloading
    cases hloading

theorem wake_returns (hx : s.calls.lookup k = some x) (hstage : x.stage = .waiting)
    (hready : (s.entry x.entry).ready = true) :
    s.step compileRouteSchemas (.wake k) = some (s.setCall k { x with stage := .returned }) := by
  simp [step, hx, hstage, hready]

/-- A call returns once the load it waits for, or its own, has been finished. -/
theorem Sound.returns (h : Sound s) (hx : s.calls.lookup k = some x)
    (metadata : Option (SchemaMeta σ)) :
    ∃ es t, Trace.exec (step compileRouteSchemas) s es = some t ∧ Returning metadata es ∧
      t.calls.lookup k = some { x with stage := .returned } := by
  cases hstage : x.stage with
  | created | fetching | loaded =>
    have hloading : x.stage.loading = true := by rw [hstage]; rfl
    obtain ⟨es, t, hrun, hfetch, hcall, -⟩ := finishes_loading hx hloading
    exact ⟨es, t, hrun, hfetch, hcall⟩
  | returned => exact ⟨[], s, rfl, fun _ _ hmem => (by cases hmem), by rw [hx, ← hstage]⟩
  | waiting =>
    cases hready : (s.entry x.entry).ready with
    | true =>
      refine ⟨[.wake k], _, Trace.exec_cons.mpr ⟨_, wake_returns hx hstage hready, rfl⟩,
        fun j m hmem => ?_, lookup_setCall_self⟩
      cases List.mem_singleton.mp hmem
    | false =>
      have hk : ∀ y ∈ s.calls.lookup k, y.stage.loading = false := by
        intro y hy
        cases hx.symm.trans hy
        rw [hstage]
        rfl
      obtain ⟨j, y, hne, hj, hloading, hentry⟩ := h.loader_ne hk (h.call hx).entry_lt hready
      obtain ⟨es, t, hrun, hfetch, -, hdone, hothers⟩ := finishes_loading hj hloading
      have hwake : t.step compileRouteSchemas (.wake k) = some _ :=
        wake_returns ((hothers k hne.symm).trans hx) hstage (hentry ▸ hdone)
      refine ⟨es ++ [.wake k], _, Trace.exec_append hrun (Trace.exec_cons.mpr ⟨_, hwake, rfl⟩),
        fun i m hmem => ?_, lookup_setCall_self⟩
      rcases List.mem_append.mp hmem with hmem | hmem
      · exact hfetch i m hmem
      · cases List.mem_singleton.mp hmem

theorem sound_owned_exec {minRefetchAge : Int} {es : List (SchemaEvent σ)}
    (hrun : Trace.exec (step compileRouteSchemas) { minRefetchAge } es = some s) :
    Sound s ∧ Owned s := by
  refine Trace.exec_always (I := fun s => Sound s ∧ Owned s)
    (fun h hstep => ⟨sound_step h.1 hstep, owned_step h hstep⟩) ⟨sound_init minRefetchAge, ?_⟩ hrun
  exact ⟨fun he => (by cases he), fun hx => by cases hx⟩

/-- In every interleaving at most one call at a time loads entries of a domain, and a call that has
returned has an entry that a call for its domain has loaded: its own, after it found none or an
expired one; one that was being loaded when it looked; or one that had not expired then and has not
changed since. Every call can go on to its return. -/
theorem one_load_at_a_time (compileRouteSchemas : List (String × σ) → Option (List (String × ρ)))
    (minRefetchAge : Int) (es : List (SchemaEvent σ)) (s : SchemaCache ρ)
    (hrun : Trace.exec (step compileRouteSchemas) { minRefetchAge } es = some s) :
    (∀ k k' x x', s.calls.lookup k = some x → s.calls.lookup k' = some x' →
      x.stage.loading = true → x'.stage.loading = true → x.domain = x'.domain → k = k') ∧
    (∀ k x, s.calls.lookup k = some x → x.stage = .returned →
      (s.entry x.entry).ready = true ∧ s.Loaded x.domain x.entry ∧
        (x.Started ∨ x.Joined ∨
          x.found = some (x.entry, s.entry x.entry) ∧ x.lookedAt < (s.entry x.entry).expiresAt)) ∧
    ∀ k x, s.calls.lookup k = some x → ∀ metadata : Option (SchemaMeta σ), ∃ es' t,
      Trace.exec (step compileRouteSchemas) s es' = some t ∧ Returning metadata es' ∧
        t.calls.lookup k = some { x with stage := .returned } := by
  obtain ⟨hsound, howned⟩ := sound_owned_exec hrun
  refine ⟨fun k k' x x' hx hx' hloading hloading' hdomain => ?_, fun k x hx hstage => ?_,
    fun k x hx metadata => hsound.returns hx metadata⟩
  · -- both entries are the current one of the domain
    have hcurrent := ((hsound.call hx).loading hloading).1
    rw [hdomain, ((hsound.call hx').loading hloading').1] at hcurrent
    exact hsound.unique hx hx' hloading hloading' (Option.some.inj hcurrent).symm
  · have hcall := hsound.call hx
    refine ⟨hcall.returned hstage, howned.call hx, ?_⟩
    have hfair := hcall.fair
    rw [Get.Fair, hstage] at hfair
    rcases hfair with ⟨y, hfound, hready, hlive⟩ | hjoined | hstarted
    · have hsame : s.entry x.entry = y := hcall.kept _ hfound hready
      rw [hsame]
      exact .inr (.inr ⟨hfound, hlive⟩)
    · exact .inr (.inl hjoined)
    · exact .inl hstarted

/-- Two calls share a load that a sweep leaves alone, a third finds the entry, and a fourth replaces
it once it has expired. -/
def sharedLoad : List (SchemaEvent Unit) :=
  [.get 0 "https://a", .get 1 "https://a", .load 0, .sweep 700000000000,
    .fetched 0 (some ⟨"v1", [("POST /", ())]⟩), .close 0, .wake 1, .get 2 "https://a",
    .advance 600000000000, .get 3 "https://a", .invalidateIfStale "https://a" "v2", .load 3,
    .fetched 3 none, .close 3]

theorem shared_load_returns : ∃ s : SchemaCache Unit,
    Trace.exec (step some) {} sharedLoad = some s ∧
      (∀ k ∈ [0, 1, 2], (s.calls.lookup k).map (fun x => (x.entry, x.stage)) =
        some (0, .returned)) ∧
      (s.calls.lookup 3).map (fun x => (x.entry, x.stage)) = some (1, .returned) ∧
      ∀ k x, s.calls.lookup k = some x → x.stage = .returned →
        (s.entry x.entry).ready = true ∧ s.Loaded x.domain x.entry := by
  obtain ⟨s, hs⟩ : ∃ s, Trace.exec (step some) ({} : SchemaCache Unit) sharedLoad = some s :=
    ⟨_, rfl⟩
  have hcalls : ∀ s ∈ Trace.exec (step some) ({} : SchemaCache Unit) sharedLoad,
      (∀ k ∈ [0, 1, 2],
        (s.calls.lookup k).map (fun x => (x.entry, x.stage)) = some (0, .returned)) ∧
      (s.calls.lookup 3).map (fun x => (x.entry, x.stage)) = some (1, .returned) := by
    decide +kernel
  obtain ⟨hfirst, hlast⟩ := hcalls s hs
  have hreturned := (one_load_at_a_time some schemaMinRefetchAge sharedLoad s hs).2.1
  refine ⟨s, hs, hfirst, hlast, fun k x hx hstage => ?_⟩
  obtain ⟨hready, hloaded, -⟩ := hreturned k x hx hstage
  exact ⟨hready, hloaded⟩

end SchemaCache

end Aquifer.L8
