import Aquifer.Cluster.Valkey

/-! Every scope has one owner, and no instance is given more new scopes than it has room for. -/
namespace Aquifer.Valkey

variable {hash : String → String} {s t : Valkey} {h A B : String} {m c : Member} {ttl : Nat}
  {cs : List Member} {e : Event} {es : List Event}

/-- The scope is assigned to the instance, in its key and in the instance's set. -/
def hold (s : Valkey) (id h : String) (ttl : Nat) : Valkey :=
  { s with assignment := s.assignment.set h id (s.clock + ttl) }.zadd id h (s.clock + ttl)

/-- The assignment of the scope is taken back, from its key and from its owner's set. -/
def free (s : Valkey) (h : String) : Valkey :=
  match s.assignment.get s.clock h with
  | some id => { s with assignment := s.assignment.erase h }.zrem id h
  | none => s

/-- The scope has no live assignment to an active instance. -/
def Open (s : Valkey) (h : String) : Prop :=
  ∀ id, s.assignment.get s.clock h = some id → s.activeMember id = none

/-- What a run of the assign script ends in: the scope stays with its active owner, or no candidate
was active, or one of them was selected. -/
inductive Assigned (s : Valkey) (h : String) (cs : List Member) (ttl : Nat) :
    Valkey → Option Member → Prop
  | kept {id : String} {payload : Member} : s.assignment.get s.clock h = some id →
      s.activeMember id = some payload →
      Assigned s h cs ttl (s.hold id h ttl) (some payload)
  | refused {u : Valkey} : s.Open h → Purged (s.free h) u → Assigned s h cs ttl u none
  | placed {u : Valkey} {x : Load} {payload : Member} : s.Open h → Purged (s.free h) u →
      x ∈ cs.filterMap (s.free h).load →
      (x.used < x.capacity ∨ ∀ y ∈ cs.filterMap (s.free h).load, y.capacity ≤ y.used) →
      s.instances.get s.clock x.candidate.id = some payload →
      Assigned s h cs ttl (u.hold x.candidate.id h ttl) (some payload)

theorem free_clock : (s.free h).clock = s.clock := by
  unfold free
  split <;> rfl

theorem free_instances : (s.free h).instances = s.instances := by
  unfold free
  split <;> rfl

theorem activeMember_free : (s.free h).activeMember A = s.activeMember A := by
  rw [activeMember, activeMember, free_clock, free_instances]

theorem get_of_active (ha : s.activeMember A = some m) : s.instances.get s.clock A = some m :=
  (Option.filter_eq_some_iff.mp ha).1

theorem load_eq_some {x : Load} (hx : s.load c = some x) :
    x.candidate = c ∧ ∃ payload, s.activeMember c.id = some payload ∧
      x.capacity = capacityOf payload c ∧ x.used = max payload.activeUsers (s.held c.id) := by
  rw [load, Option.map_eq_some_iff] at hx
  obtain ⟨payload, hp, rfl⟩ := hx
  exact ⟨rfl, payload, hp, rfl, rfl⟩

theorem place_cases (hopen : s.Open h) (cs : List Member) (ttl : Nat) :
    Assigned s h cs ttl (place (s.free h) h cs ttl false).1
      (place (s.free h) h cs ttl false).2 := by
  have hpurged := purged_survey (s.free h) cs
  have hloads := loads_survey (s.free h) cs
  rw [place]
  generalize (s.free h).survey cs = r at hpurged hloads
  obtain ⟨t, loads⟩ := r
  dsimp only at hpurged hloads ⊢
  cases hsel : select false loads with
  | none => exact .refused hopen hpurged
  | some x =>
    obtain ⟨hmem, hcap⟩ := select_cases hsel
    rw [hloads] at hmem hcap
    obtain ⟨c, -, hx⟩ := List.mem_filterMap.mp hmem
    obtain ⟨rfl, payload, hactive, -⟩ := load_eq_some hx
    have hget := get_of_active (activeMember_free ▸ hactive)
    have hsame : t.instances.get t.clock x.candidate.id = some payload := by
      rw [hpurged.clock, hpurged.instances, free_clock, free_instances]
      exact hget
    dsimp only
    rw [hsame]
    exact .placed hopen hpurged hmem hcap hget

theorem assignScript_cases (s : Valkey) (h : String) (cs : List Member) (ttl : Nat) :
    Assigned s h cs ttl (assignScript s h cs ttl false).1 (assignScript s h cs ttl false).2 := by
  cases hkey : s.assignment.get s.clock h with
  | none =>
    have hfree : s.free h = s := by simp [free, hkey]
    have hopen : s.Open h := by
      intro id hid
      simp [hkey] at hid
    have := place_cases hopen cs ttl
    rw [hfree] at this
    simpa only [assignScript, hkey] using this
  | some id =>
    cases hactive : s.activeMember id with
    | some payload =>
      have hset : s.assignment.expire s.clock h (s.clock + ttl) =
          s.assignment.set h id (s.clock + ttl) := by simp [Expiring.expire, hkey]
      simp only [assignScript, hkey, hactive, hset]
      exact .kept hkey hactive
    | none =>
      have hopen : s.Open h := by
        intro x hx
        rw [show x = id from Option.some.inj (hx.symm.trans hkey)]
        exact hactive
      have := place_cases hopen cs ttl
      have hfree : s.free h = { s with assignment := s.assignment.erase h }.zrem id h := by
        simp [free, hkey]
      rw [hfree] at this
      simpa only [assignScript, hkey, hactive] using this

/-! ### One owner -/

/-- A payload names its instance, and an unexpired entry in the set of an instance stands for an
assignment key that names the instance and lasts at least as long. -/
structure Sound (s : Valkey) : Prop where
  named : ∀ id m d, s.instances.lookup id = some (m, d) → m.id = id
  owned : ∀ A h e, s.assignments.lookup (A, h) = some e → s.clock < e →
    ∃ d, s.assignment.lookup h = some (A, d) ∧ e ≤ d

theorem Sound.owner (hs : Sound s) {e : Nat} (he : s.assignments.lookup (A, h) = some e)
    (hlive : s.clock < e) : s.assignment.get s.clock h = some A := by
  obtain ⟨d, hd, hle⟩ := hs.owned A h e he hlive
  exact Expiring.get_eq_some_iff.mpr ⟨d, hd, by omega⟩

theorem Sound.id_eq (hs : Sound s) (hm : s.instances.get s.clock A = some m) : m.id = A := by
  obtain ⟨d, hd, -⟩ := Expiring.get_eq_some_iff.mp hm
  exact hs.named A m d hd

theorem Sound.purged (hs : Sound s) (hp : Purged s t) : Sound t where
  named := hp.instances ▸ hs.named
  owned A h e he hlive := by
    rw [hp.assignment]
    exact hs.owned A h e (hp.mem _ _ he) (hp.clock ▸ hlive)

theorem Sound.free (hs : Sound s) (h : String) : Sound (s.free h) := by
  cases hkey : s.assignment.get s.clock h with
  | none => simpa [Valkey.free, hkey] using hs
  | some id =>
    have hfree : s.free h = { s with assignment := s.assignment.erase h }.zrem id h := by
      simp [Valkey.free, hkey]
    rw [hfree]
    refine ⟨hs.named, ?_⟩
    intro A k e he hlive
    rw [zrem, Assoc.lookup_erase_ite, Option.ite_none_left_eq_some] at he
    obtain ⟨hne, he⟩ := he
    obtain ⟨d, hd, hle⟩ := hs.owned A k e he hlive
    have hk : k ≠ h := by
      rintro rfl
      exact hne (by rw [Option.some.inj (hkey.symm.trans (hs.owner he hlive))])
    refine ⟨d, ?_, hle⟩
    rw [zrem, Assoc.lookup_erase_ite, if_neg hk]
    exact hd

theorem Sound.hold (hs : Sound s) (ttl : Nat)
    (hfree : ∀ B, s.assignment.get s.clock h = some B → B = A) : Sound (s.hold A h ttl) := by
  refine ⟨hs.named, ?_⟩
  intro B k e he hlive
  rw [Valkey.hold, zadd, Assoc.lookup_insert_ite] at he
  rw [Valkey.hold, zadd, Expiring.set, Assoc.lookup_insert_ite]
  by_cases hnew : (B, k) = (A, h)
  · rw [if_pos hnew] at he
    cases he
    cases hnew
    exact ⟨_, if_pos rfl, le_rfl⟩
  · rw [if_neg hnew] at he
    -- an entry of another instance for this scope would make that instance the owner
    have hk : k ≠ h := by
      rintro rfl
      exact hnew (by rw [hfree B (hs.owner he hlive)])
    rw [if_neg hk]
    exact hs.owned B k e he hlive

theorem Sound.delAssignments (hs : Sound s) (id : String) : Sound (s.delAssignments id) := by
  refine ⟨hs.named, ?_⟩
  intro A h e he hlive
  rw [Valkey.delAssignments, Assoc.lookup_keep] at he
  exact hs.owned A h e (Option.filter_eq_some_iff.mp he).1 hlive

theorem Sound.later (hs : Sound s) (ms : Nat) : Sound { s with clock := s.clock + ms } := by
  refine ⟨hs.named, ?_⟩
  intro A h e he hlive
  exact hs.owned A h e he (Nat.lt_of_le_of_lt (Nat.le_add_right _ ms) hlive)

theorem get_free : (s.free h).assignment.get (s.free h).clock h = none := by
  rw [free_clock]
  cases hkey : s.assignment.get s.clock h with
  | none => simp [Valkey.free, hkey]
  | some id => simp [Valkey.free, hkey, zrem, Expiring.get_erase]

theorem Sound.assigned {r : Option Member} (hs : Sound s) (ha : Assigned s h cs ttl t r) :
    Sound t := by
  cases ha with
  | kept hkey _ =>
    refine hs.hold ttl ?_
    intro B hB
    exact Option.some.inj (hB.symm.trans hkey)
  | refused _ hp => exact (hs.free h).purged hp
  | placed _ hp _ _ _ =>
    refine ((hs.free h).purged hp).hold ttl ?_
    intro B hB
    rw [hp.clock, hp.assignment, get_free] at hB
    cases hB

theorem renew_cases (hash : String → String) (s : Valkey) (scope id : String) (ttl : Nat) :
    renew hash s scope id ttl = s ∨ s.assignment.get s.clock (hash scope) = some id ∧
      renew hash s scope id ttl = s.hold id (hash scope) ttl := by
  by_cases hkey : s.assignment.get s.clock (hash scope) = some id
  · refine Or.inr ⟨hkey, ?_⟩
    rw [renew, if_pos hkey, Expiring.expire, hkey]
    rfl
  · exact Or.inl (if_neg hkey)

theorem release_cases (hash : String → String) (s : Valkey) (scope id : String) :
    release hash s scope id = s ∨ s.assignment.get s.clock (hash scope) = some id ∧
      release hash s scope id = s.free (hash scope) := by
  by_cases hkey : s.assignment.get s.clock (hash scope) = some id
  · refine Or.inr ⟨hkey, ?_⟩
    rw [release, if_pos hkey, Valkey.free, hkey]
  · exact Or.inl (if_neg hkey)

theorem sound_cleanup (stale : List String) (hs : Sound s) : Sound (s.cleanup stale) := by
  induction stale generalizing s with
  | nil => exact hs
  | cons id stale ih => exact ih (hs.delAssignments id)

theorem sound_step (hs : Sound s) (h : step hash s e = some t) : Sound t := by
  cases e with
  | tick ms =>
    cases h
    exact hs.later ms
  | heartbeat m ttl =>
    cases h
    refine ⟨?_, hs.owned⟩
    intro id x d hx
    rw [heartbeat, Expiring.set, Assoc.lookup_insert_ite] at hx
    split at hx
    · rename_i hid
      cases hx
      exact hid.symm
    · exact hs.named id x d hx
  | assign scope candidates ttl =>
    simp only [step, assign, Option.some.injEq] at h
    split at h <;> cases h
    · exact hs
    · exact hs.assigned (assignScript_cases s (hash scope) candidates ttl)
  | renew scope nodeID ttl =>
    cases h
    rcases renew_cases hash s scope nodeID ttl with heq | ⟨hkey, heq⟩ <;> rw [heq]
    · exact hs
    · refine hs.hold ttl ?_
      intro B hB
      exact Option.some.inj (hB.symm.trans hkey)
  | release scope nodeID =>
    cases h
    rcases release_cases hash s scope nodeID with heq | ⟨_, heq⟩ <;> rw [heq]
    · exact hs
    · exact hs.free _
  | removeInstance id =>
    cases h
    refine Sound.delAssignments (s := { s with instances := s.instances.erase id })
      ⟨?_, hs.owned⟩ id
    intro x m d hx
    rw [Assoc.lookup_erase_ite, Option.ite_none_left_eq_some] at hx
    exact hs.named x m d hx.2
  | cleanup stale =>
    cases h
    exact sound_cleanup stale hs

theorem sound_empty : Sound {} := by
  constructor
  · intro id m d h
    cases h
  · intro A h e he
    cases he

theorem sound_run (hrun : Trace.exec (step hash) {} es = some s) : Sound s :=
  Trace.exec_always sound_step sound_empty hrun

/-! ### The owner stays -/

theorem get_hold {k : String} {B : String}
    (hB : (s.hold A h ttl).assignment.get (s.hold A h ttl).clock k = some B) :
    (k = h ∧ B = A) ∨ (k ≠ h ∧ s.assignment.get s.clock k = some B) := by
  rw [Valkey.hold, zadd, Expiring.get_set] at hB
  by_cases hk : k = h
  · rw [if_pos hk] at hB
    split at hB <;> cases hB
    exact .inl ⟨hk, rfl⟩
  · rw [if_neg hk] at hB
    exact .inr ⟨hk, hB⟩

theorem get_free_ne {k : String} (hk : k ≠ h) :
    (s.free h).assignment.get (s.free h).clock k = s.assignment.get s.clock k := by
  rw [free_clock]
  cases hkey : s.assignment.get s.clock h with
  | none => simp [Valkey.free, hkey]
  | some id => simp [Valkey.free, hkey, zrem, Expiring.get_erase, hk]

def Event.releases (hash : String → String) (scope A : String) : Event → Bool
  | .release scope' nodeID => hash scope' = hash scope && nodeID = A
  | _ => false

/-- Before the event the scope's key has not expired and the instance is active, and the event does
not release the scope. -/
def Stays (hash : String → String) (scope A : String) (s : Valkey) (e : Event) : Prop :=
  (s.assignment.get s.clock (hash scope)).isSome = true ∧ (s.activeMember A).isSome = true ∧
    e.releases hash scope A = false

instance {scope : String} : Decidable (Stays hash scope A s e) := by unfold Stays; infer_instance

def OnlyTo (s : Valkey) (h A : String) : Prop := ∀ B, s.assignment.get s.clock h = some B → B = A

theorem onlyTo_assigned {k : String} {r : Option Member} (ho : OnlyTo s h A)
    (hlive : (s.assignment.get s.clock h).isSome = true)
    (hactive : (s.activeMember A).isSome = true)
    (ha : Assigned s k cs ttl t r) : OnlyTo t h A := by
  have howner : s.assignment.get s.clock h = some A := by
    obtain ⟨B, hB⟩ := Option.isSome_iff_exists.mp hlive
    rw [hB, ho B hB]
  -- the scope's own key is live and its owner active, so only another scope is placed
  have hother : s.Open k → h ≠ k := by
    rintro hopen rfl
    simp [hopen A howner] at hactive
  cases ha with
  | kept hkey _ =>
    intro B hB
    rcases get_hold hB with ⟨rfl, rfl⟩ | ⟨-, hB⟩
    · exact ho _ hkey
    · exact ho B hB
  | refused hopen hp =>
    intro B hB
    rw [hp.clock, hp.assignment, get_free_ne (hother hopen)] at hB
    exact ho B hB
  | placed hopen hp _ _ _ =>
    intro B hB
    rcases get_hold hB with ⟨rfl, -⟩ | ⟨-, hB⟩
    · exact absurd rfl (hother hopen)
    · rw [hp.clock, hp.assignment, get_free_ne (hother hopen)] at hB
      exact ho B hB

theorem assignment_cleanup (stale : List String) (s : Valkey) :
    (s.cleanup stale).assignment = s.assignment ∧ (s.cleanup stale).clock = s.clock := by
  induction stale generalizing s with
  | nil => exact ⟨rfl, rfl⟩
  | cons id stale ih => exact ih (s.delAssignments id)

theorem onlyTo_step {scope : String} (ho : OnlyTo s (hash scope) A) (hok : Stays hash scope A s e)
    (h : step hash s e = some t) : OnlyTo t (hash scope) A := by
  obtain ⟨hlive, hactive, hkeep⟩ := hok
  cases e with
  | tick ms =>
    cases h
    intro B hB
    exact ho B (Expiring.get_of_later (Nat.le_add_right _ ms) hB)
  | heartbeat m ttl =>
    cases h
    exact ho
  | assign scope' candidates ttl =>
    simp only [step, assign, Option.some.injEq] at h
    split at h <;> cases h
    · exact ho
    · exact onlyTo_assigned ho hlive hactive (assignScript_cases s _ candidates ttl)
  | renew scope' nodeID ttl =>
    cases h
    rcases renew_cases hash s scope' nodeID ttl with heq | ⟨hkey, heq⟩ <;> rw [heq]
    · exact ho
    · intro B hB
      rcases get_hold hB with ⟨hsame, rfl⟩ | ⟨-, hB⟩
      · exact ho B (hsame ▸ hkey)
      · exact ho B hB
  | release scope' nodeID =>
    cases h
    rcases release_cases hash s scope' nodeID with heq | ⟨hkey, heq⟩ <;> rw [heq]
    · exact ho
    · have hne : hash scope ≠ hash scope' := by
        intro heq
        have hid : nodeID = A := ho nodeID (heq ▸ hkey)
        simp [Event.releases, heq, hid] at hkeep
      intro B hB
      rw [get_free_ne hne] at hB
      exact ho B hB
  | removeInstance id =>
    cases h
    exact ho
  | cleanup stale =>
    cases h
    intro B hB
    rw [(assignment_cleanup stale s).1, (assignment_cleanup stale s).2] at hB
    exact ho B hB

theorem onlyTo_assign {scope : String} (hs : Sound s)
    (ha : (assign hash s scope cs ttl).2 = some m) :
    OnlyTo (assign hash s scope cs ttl).1 (hash scope) m.id := by
  unfold assign at ha ⊢
  split at ha
  · cases ha
  · rename_i hcs
    rw [if_neg hcs]
    have hcases := assignScript_cases s (hash scope) cs ttl
    rw [ha] at hcases
    generalize (assignScript s (hash scope) cs ttl false).1 = t at hcases
    cases hcases with
    | kept hkey hactive =>
      intro B hB
      rw [hs.id_eq (get_of_active hactive)]
      rcases get_hold hB with ⟨-, hB⟩ | ⟨hne, -⟩
      · exact hB
      · exact absurd rfl hne
    | placed _ hp _ _ hget =>
      intro B hB
      rw [hs.id_eq hget]
      rcases get_hold hB with ⟨-, hB⟩ | ⟨hne, -⟩
      · exact hB
      · exact absurd rfl hne

theorem assign_owner {scope : String} (hs : Sound s) (ho : OnlyTo s (hash scope) A)
    (hlive : (s.assignment.get s.clock (hash scope)).isSome = true)
    (hactive : (s.activeMember A).isSome = true) (hcs : cs ≠ []) :
    ∃ m, (assign hash s scope cs ttl).2 = some m ∧ m.id = A := by
  obtain ⟨B, hB⟩ := Option.isSome_iff_exists.mp hlive
  obtain rfl := ho B hB
  obtain ⟨m, hm⟩ := Option.isSome_iff_exists.mp hactive
  refine ⟨m, ?_, hs.id_eq (get_of_active hm)⟩
  simp only [assign, if_neg hcs, assignScript, hB, hm]

/-- In every run, an unexpired entry in an instance's set is for a scope whose key names that
instance, so no scope counts against two; and between two `Assign` calls a scope stays with the
instance the first one answered while its key lives, it is not released and the instance is
active. -/
theorem scope_keeps_one_owner (hash : String → String) (es : List Event) (s : Valkey)
    (hrun : Trace.exec (step hash) {} es = some s) :
    (∀ A h e, s.assignments.lookup (A, h) = some e → s.clock < e →
      s.assignment.get s.clock h = some A) ∧
    (∀ A B h e e', s.assignments.lookup (A, h) = some e → s.clock < e →
      s.assignments.lookup (B, h) = some e' → s.clock < e' → A = B) ∧
    ∀ scope cs ttl m es' u, (assign hash s scope cs ttl).2 = some m →
      Trace.exec (step hash) (assign hash s scope cs ttl).1 es' = some u →
      Trace.Along (step hash) (Stays hash scope m.id) (assign hash s scope cs ttl).1 es' →
      (u.assignment.get u.clock (hash scope)).isSome = true →
      (u.activeMember m.id).isSome = true →
      ∀ cs' ttl', cs' ≠ [] → ∃ m', (assign hash u scope cs' ttl').2 = some m' ∧ m'.id = m.id := by
  have hs : Sound s := sound_run hrun
  refine ⟨fun A h e he hlive => hs.owner he hlive, ?_, ?_⟩
  · intro A B h e e' he hlive he' hlive'
    exact Option.some.inj ((hs.owner he hlive).symm.trans (hs.owner he' hlive'))
  · intro scope cs ttl m es' u hfirst hmore hstays hlive hactive cs' ttl' hcs'
    have hnext : Sound (assign hash s scope cs ttl).1 :=
      sound_step hs (show step hash s (.assign scope cs ttl) = _ from rfl)
    obtain ⟨hu, ho⟩ : Sound u ∧ OnlyTo u (hash scope) m.id := by
      refine Trace.exec_invariant (I := fun x => Sound x ∧ OnlyTo x (hash scope) m.id) ?_
        ⟨hnext, onlyTo_assign hs hfirst⟩ hstays hmore
      rintro a b e ⟨ha, hoa⟩ hok hstep
      exact ⟨sound_step ha hstep, onlyTo_step hoa hok hstep⟩
    exact assign_owner hu ho hlive hactive hcs'

/-- Two nodes with room for one scope each. -/
def nodeA : Member := ⟨"a", "http://a", .active, 0, 1⟩
def nodeB : Member := ⟨"b", "http://b", .active, 0, 1⟩

/-- A node that knows only `b` is answered `a`, to which another node's request was assigned. -/
theorem second_assign_agrees :
    ∃ s, Trace.exec (step id) {} [.heartbeat nodeA 15000, .heartbeat nodeB 15000] = some s ∧
      ∃ u, Trace.exec (step id) (assign id s "user" [nodeA] 310000).1
          [.tick 5000, .renew "user" "a" 310000, .release "user" "b"] = some u ∧
        ∃ m, (assign id u "user" [nodeB] 310000).2 = some m ∧
          m.id = "a" := by
  have hrun : ∃ s, Trace.exec (step id) {} [.heartbeat nodeA 15000, .heartbeat nodeB 15000] =
    some s ∧
      (assign id s "user" [nodeA] 310000).2 = some nodeA ∧
      Trace.Along (step id) (Stays id "user" "a")
        (assign id s "user" [nodeA] 310000).1
        [.tick 5000, .renew "user" "a" 310000, .release "user" "b"] ∧
      ∃ u, Trace.exec (step id) (assign id s "user" [nodeA] 310000).1
          [.tick 5000, .renew "user" "a" 310000, .release "user" "b"] = some u ∧
        (u.assignment.get u.clock "user").isSome = true ∧
        (u.activeMember "a").isSome = true := by decide +kernel
  obtain ⟨s, hs, hfirst, hstays, u, hu, hlive, hactive⟩ := hrun
  exact ⟨s, hs, u, hu, (scope_keeps_one_owner id _ s hs).2.2 "user" _ 310000 _ _ u hfirst hu hstays
    hlive hactive _ 310000 (by decide)⟩

end Aquifer.Valkey
