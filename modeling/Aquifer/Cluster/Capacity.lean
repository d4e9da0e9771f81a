import Aquifer.Cluster.Assignments

/-! Which instance a scope is placed on, against the assignment keys that name each instance. -/
namespace Aquifer.Valkey

variable {hash : String → String} {s t : Valkey} {h A B k : String} {m c : Member} {ttl : Nat}
  {cs : List Member} {e : Event} {es : List Event}

def scopesOf (s : Valkey) (id : String) : List String :=
  (s.assignment.entries.filter fun e => e.2.1 = id && s.clock < e.2.2).map Sigma.fst

def liveCount (s : Valkey) (id : String) : Nat := (s.scopesOf id).length

/-- Every live assignment key is counted in its instance's set until it expires. -/
def Counted (s : Valkey) : Prop :=
  ∀ h A d, s.assignment.lookup h = some (A, d) → s.clock < d → s.assignments.lookup (A, h) = some d

/-- The set of an instance is deleted only when no live key names it, and no candidate reports that
it is full while it has room by its live keys. -/
def Unbiased (s : Valkey) : Event → Prop
  | .removeInstance id => s.liveCount id = 0
  | .cleanup stale => ∀ id ∈ stale, s.liveCount id = 0
  | .assign _ cs _ => ∀ c ∈ cs, ∀ payload ∈ s.activeMember c.id,
      capacityOf payload c ≤ payload.activeUsers → capacityOf payload c ≤ s.liveCount c.id
  | _ => True

instance : (e : Event) → Decidable (Unbiased s e)
  | .tick _ | .heartbeat _ _ | .renew _ _ _ | .release _ _ => isTrue trivial
  | .removeInstance id => inferInstanceAs (Decidable (s.liveCount id = 0))
  | .cleanup stale => inferInstanceAs (Decidable (∀ id ∈ stale, s.liveCount id = 0))
  | .assign _ cs _ => inferInstanceAs (Decidable (∀ c ∈ cs, ∀ payload ∈ s.activeMember c.id,
      capacityOf payload c ≤ payload.activeUsers → capacityOf payload c ≤ s.liveCount c.id))

theorem mem_scopesOf : k ∈ s.scopesOf A ↔ s.assignment.get s.clock k = some A := by
  rw [scopesOf, List.mem_map, Expiring.get_eq_some_iff]
  constructor
  · rintro ⟨⟨k', B, d⟩, hmem, rfl⟩
    simp only [List.mem_filter, Bool.and_eq_true, decide_eq_true_eq] at hmem
    obtain ⟨hmem, rfl, hd⟩ := hmem
    exact ⟨d, Assoc.mem_entries_iff.mp hmem, hd⟩
  · rintro ⟨d, hl, hd⟩
    exact ⟨⟨k, A, d⟩, List.mem_filter.mpr ⟨Assoc.mem_entries_iff.mpr hl, by simp [hd]⟩, rfl⟩

theorem nodup_scopesOf : (s.scopesOf A).Nodup :=
  s.assignment.nodupKeys.sublist List.filter_sublist

theorem liveCount_congr
    (hsame : ∀ k, s.assignment.get s.clock k = some A ↔ t.assignment.get t.clock k = some A) :
    s.liveCount A = t.liveCount A := by
  refine List.Perm.length_eq ((List.perm_ext_iff_of_nodup nodup_scopesOf nodup_scopesOf).mpr ?_)
  intro k
  rw [mem_scopesOf, mem_scopesOf]
  exact hsame k

/-- In a store where every live key is counted, the sets count what the keys say. -/
theorem held_eq_liveCount (hs : Sound s) (hc : Counted s) : s.held A = s.liveCount A := by
  have hlen : s.held A =
      ((s.assignments.entries.filter fun e => e.1.1 = A && s.clock < e.2).map fun e =>
        e.1.2).length := by
    rw [List.length_map]
    rfl
  rw [hlen]
  refine List.Perm.length_eq ((List.perm_ext_iff_of_nodup ?_ nodup_scopesOf).mpr ?_)
  · have hkeys : ((s.assignments.entries.filter fun e => e.1.1 = A && s.clock < e.2).map
        Sigma.fst).Nodup := s.assignments.nodupKeys.sublist List.filter_sublist
    change (List.map (Prod.snd ∘ Sigma.fst) _).Nodup
    rw [← List.map_map]
    refine hkeys.map_on ?_
    simp only [List.mem_map, List.mem_filter, Bool.and_eq_true, decide_eq_true_eq]
    rintro ⟨x, y⟩ ⟨a, ⟨-, ha, -⟩, hx⟩ ⟨x', y'⟩ ⟨b, ⟨-, hb, -⟩, hx'⟩ heq
    rw [hx] at ha
    rw [hx'] at hb
    exact Prod.ext (ha.trans hb.symm) heq
  · intro k
    rw [mem_scopesOf, List.mem_map]
    constructor
    · rintro ⟨⟨⟨B, k'⟩, d⟩, hmem, rfl⟩
      simp only [List.mem_filter, Bool.and_eq_true, decide_eq_true_eq] at hmem
      obtain ⟨hmem, rfl, hd⟩ := hmem
      exact hs.owner (Assoc.mem_entries_iff.mp hmem) hd
    · intro hk
      obtain ⟨d, hl, hd⟩ := Expiring.get_eq_some_iff.mp hk
      refine ⟨⟨(A, k), d⟩, List.mem_filter.mpr ⟨?_, by simp [hd]⟩, rfl⟩
      exact Assoc.mem_entries_iff.mpr (hc k A d hl hd)

/-! ### The sets stay complete -/

theorem Counted.hold (hc : Counted s) (A h : String) (ttl : Nat) : Counted (s.hold A h ttl) := by
  intro k B d hl hd
  rw [Valkey.hold, zadd, Expiring.set, Assoc.lookup_insert_ite] at hl
  rw [Valkey.hold, zadd, Assoc.lookup_insert_ite]
  by_cases hk : k = h
  · rw [if_pos hk] at hl
    cases hl
    rw [if_pos (by rw [hk])]
  · rw [if_neg hk] at hl
    rw [if_neg fun heq => hk (congrArg Prod.snd heq)]
    exact hc k B d hl hd

theorem Counted.free (hc : Counted s) (h : String) : Counted (s.free h) := by
  unfold Valkey.free
  split
  · rename_i id hkey
    intro k B d hl hd
    rw [zrem, Assoc.lookup_erase_ite, Option.ite_none_left_eq_some] at hl
    rw [zrem, Assoc.lookup_erase_ite, if_neg fun heq => hl.1 (congrArg Prod.snd heq)]
    exact hc k B d hl.2 hd
  · exact hc

theorem Counted.purged (hc : Counted s) (hp : Purged s t) : Counted t := by
  intro k B d hl hd
  rw [hp.assignment] at hl
  rw [hp.clock] at hd
  exact hp.kept _ _ (hc k B d hl hd) hd

theorem Counted.assigned {r : Option Member} (hc : Counted s) (ha : Assigned s h cs ttl t r) :
    Counted t := by
  cases ha with
  | kept _ _ => exact hc.hold _ _ _
  | refused _ hp => exact (hc.free h).purged hp
  | placed _ hp _ _ _ => exact ((hc.free h).purged hp).hold _ _ _

/-- Deleting the set of an instance that no live key names loses nothing. -/
theorem Counted.delAssignments (hc : Counted s) (hnone : s.liveCount A = 0) :
    Counted (s.delAssignments A) := by
  intro k B d hl hd
  have hne : B ≠ A := by
    rintro rfl
    have hmem : k ∈ s.scopesOf B := mem_scopesOf.mpr (Expiring.get_eq_some_iff.mpr ⟨d, hl, hd⟩)
    rw [List.length_eq_zero_iff.mp hnone] at hmem
    cases hmem
  rw [Valkey.delAssignments, Assoc.lookup_keep]
  exact Option.filter_eq_some_iff.mpr ⟨hc k B d hl hd, by simp [hne]⟩

theorem counted_cleanup (stale : List String) (hc : Counted s)
    (hnone : ∀ id ∈ stale, s.liveCount id = 0) : Counted (s.cleanup stale) := by
  induction stale generalizing s with
  | nil => exact hc
  | cons id stale ih =>
    refine ih (hc.delAssignments (hnone id List.mem_cons_self)) ?_
    intro x hx
    exact hnone x (List.mem_cons_of_mem _ hx)

theorem counted_step (hc : Counted s) (hok : Unbiased s e) (h : step hash s e = some t) :
    Counted t := by
  cases e with
  | tick ms =>
    cases h
    intro k B d hl hd
    exact hc k B d hl (Nat.lt_of_le_of_lt (Nat.le_add_right _ ms) hd)
  | heartbeat m ttl =>
    cases h
    exact hc
  | assign scope candidates ttl =>
    simp only [step, assign, Option.some.injEq] at h
    split at h <;> cases h
    · exact hc
    · exact hc.assigned (assignScript_cases s (hash scope) candidates ttl)
  | renew scope nodeID ttl =>
    cases h
    rcases renew_cases hash s scope nodeID ttl with heq | ⟨_, heq⟩ <;> rw [heq]
    · exact hc
    · exact hc.hold _ _ _
  | release scope nodeID =>
    cases h
    rcases release_cases hash s scope nodeID with heq | ⟨_, heq⟩ <;> rw [heq]
    · exact hc
    · exact hc.free _
  | removeInstance id =>
    cases h
    exact Counted.delAssignments (s := { s with instances := s.instances.erase id }) hc hok
  | cleanup stale =>
    cases h
    exact counted_cleanup stale hc hok

/-! ### Placing a scope -/

/-- Taking back an assignment to an instance that is not active changes no other count. -/
theorem liveCount_free (hopen : s.Open h) (hactive : (s.activeMember A).isSome = true) :
    (s.free h).liveCount A = s.liveCount A := by
  refine liveCount_congr ?_
  intro k
  by_cases hk : k = h
  · subst hk
    rw [get_free]
    constructor
    · intro hnone
      cases hnone
    · intro hA
      simp [hopen A hA] at hactive
  · rw [get_free_ne hk]

theorem load_free (hs : Sound s) (hc : Counted s) (hopen : s.Open h)
    (hm : s.activeMember c.id = some m) :
    (s.free h).load c = some ⟨c, max m.activeUsers (s.liveCount c.id), capacityOf m c⟩ := by
  rw [load, activeMember_free, hm, Option.map_some, held_eq_liveCount (hs.free h) (hc.free h),
    liveCount_free hopen (by simp [hm])]

theorem room_of_assigned {r : Member} (hs : Sound s) (hc : Counted s) (hopen : s.Open h)
    (hreports : ∀ c ∈ cs, ∀ payload ∈ s.activeMember c.id,
      capacityOf payload c ≤ payload.activeUsers → capacityOf payload c ≤ s.liveCount c.id)
    (ha : Assigned s h cs ttl t (some r)) :
    ∃ c ∈ cs, c.id = r.id ∧ (s.liveCount c.id < capacityOf r c ∨
      ∀ c' ∈ cs, ∀ payload ∈ s.activeMember c'.id, capacityOf payload c' ≤ s.liveCount c'.id) := by
  cases ha with
  | kept hkey hactive =>
    rw [hopen _ hkey] at hactive
    cases hactive
  | @placed u x _ _ hp hmem hcap hget =>
    obtain ⟨c, hcs, hx⟩ := List.mem_filterMap.mp hmem
    obtain ⟨rfl, payload, hactive, hcapacity, hused⟩ := load_eq_some hx
    rw [activeMember_free] at hactive
    obtain rfl : payload = r := Option.some.inj ((get_of_active hactive).symm.trans hget)
    refine ⟨x.candidate, hcs, (hs.id_eq hget).symm, ?_⟩
    have hload := Option.some.inj (hx.symm.trans (load_free hs hc hopen hactive))
    rcases hcap with hlt | hall
    · left
      rw [hload] at hlt
      exact lt_of_le_of_lt (le_max_right _ _) hlt
    · right
      intro c' hc' p hp'
      have hy := hall _ (List.mem_filterMap.mpr ⟨c', hc', load_free hs hc hopen hp'⟩)
      rcases le_max_iff.mp hy with hle | hle
      · exact hreports c' hc' p hp' hle
      · exact hle

/-- In every run in which sets are deleted only when no live key names their instance, and no
candidate reports itself full while its live keys leave room, a scope without a live assignment is
placed on an instance below its capacity, or no active candidate is below its own. -/
theorem placement_respects_capacity (hash : String → String) (es : List Event) (s : Valkey)
    (hrun : Trace.exec (step hash) {} es = some s) (hok : Trace.Along (step hash) Unbiased {} es)
    (scope : String) (cs : List Member) (ttl : Nat) (r : Member)
    (hfree : s.assignment.get s.clock (hash scope) = none)
    (hreports : Unbiased s (.assign scope cs ttl))
    (hassign : (assign hash s scope cs ttl).2 = some r) :
    ∃ c ∈ cs, c.id = r.id ∧ (s.liveCount c.id < capacityOf r c ∨
      ∀ c' ∈ cs, ∀ payload ∈ s.activeMember c'.id, capacityOf payload c' ≤ s.liveCount c'.id) := by
  have hs : Sound s := sound_run hrun
  have hc : Counted s := by
    refine Trace.exec_invariant counted_step ?_ hok hrun
    intro k B d hl
    cases hl
  have hopen : s.Open (hash scope) := by
    intro id hid
    rw [hfree] at hid
    cases hid
  unfold assign at hassign
  split at hassign
  · cases hassign
  · have hcases := assignScript_cases s (hash scope) cs ttl
    rw [hassign] at hcases
    exact room_of_assigned hs hc hopen hreports hcases

/-- With `a` full, the next scope is placed on `b`. -/
theorem second_scope_overflows :
    ∃ s, Trace.exec (step id) {} [.heartbeat nodeA 15000, .heartbeat nodeB 15000,
        .assign "u1" [nodeA, nodeB] 310000] = some s ∧
      ∃ c ∈ [nodeA, nodeB], c.id = nodeB.id ∧ (s.liveCount c.id < capacityOf nodeB c ∨
        ∀ c' ∈ [nodeA, nodeB], ∀ payload ∈ s.activeMember c'.id,
          capacityOf payload c' ≤ s.liveCount c'.id) := by
  have hrun : ∃ s, Trace.exec (step id) {} [.heartbeat nodeA 15000, .heartbeat nodeB 15000,
        .assign "u1" [nodeA, nodeB] 310000] = some s ∧
      s.assignment.get s.clock "u2" = none ∧ Unbiased s (.assign "u2" [nodeA, nodeB] 310000) ∧
      (assign id s "u2" [nodeA, nodeB] 310000).2 = some nodeB := by decide +kernel
  obtain ⟨s, hs, hfree, hreports, hassign⟩ := hrun
  exact ⟨s, hs, placement_respects_capacity id _ s hs (by decide +kernel) "u2" _ 310000 _ hfree
    hreports hassign⟩

/-- Instance `a` is removed and comes back under its id: its set is empty though a live key names
it, and a second scope is placed on it past its capacity of 1 while `b` has none. And `b`, which has
no assignment but reports two users, is passed over for `a`, which is full. -/
theorem returning_instance_overfilled :
    (∃ s, Trace.exec (step id) {} [.heartbeat nodeA 15000, .heartbeat nodeB 15000,
        .assign "u1" [nodeA, nodeB] 310000, .removeInstance "a", .heartbeat nodeA 15000] = some s ∧
      s.assignment.get s.clock "u2" = none ∧ s.liveCount "a" = 1 ∧ s.liveCount "b" = 0 ∧
      (assign id s "u2" [nodeA, nodeB] 310000).2 = some nodeA ∧ capacityOf nodeA nodeA = 1 ∧
      capacityOf nodeB nodeB = 1) ∧
    ∃ s, Trace.exec (step id) {} [.heartbeat nodeA 15000, .assign "u1" [nodeA] 310000,
        .heartbeat { nodeB with activeUsers := 2 } 15000] = some s ∧
      s.assignment.get s.clock "u2" = none ∧ s.liveCount "a" = 1 ∧ s.liveCount "b" = 0 ∧
      (assign id s "u2" [nodeA, nodeB] 310000).2 = some nodeA := by
  decide +kernel

end Aquifer.Valkey
