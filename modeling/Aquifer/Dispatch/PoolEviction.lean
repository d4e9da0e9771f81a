import Aquifer.Dispatch.PoolShare

/-! When a failure evicts a member of a pool. -/
namespace Aquifer.Pool

variable {s t : Pool} {e : Event} {es : List Event} {p : Nat} {id id' : String} {m m' : PoolMember}

theorem mem_member : m ∈ s.member id ↔ ∃ p, s.members.lookup id = some p ∧ s.store p = m := by
  rw [member, Option.mem_def, Option.map_eq_some_iff]

theorem notMem_member (hlookup : s.members.lookup id = none) : m ∉ s.member id := by
  simp [member, hlookup]

theorem member_modify {f : PoolMember → PoolMember} (h : Wf s)
    (hlookup : s.members.lookup id = some p) (hm : m ∈ (s.modify p f).member id') :
    (id' = id ∧ m = f (s.store p)) ∨ (id' ≠ id ∧ m ∈ s.member id') := by
  obtain ⟨q, hq, rfl⟩ := mem_member.mp hm
  change s.members.lookup id' = some q at hq
  rw [store_modify]
  by_cases hid : id' = id
  · subst hid
    rw [hlookup] at hq
    cases hq
    exact .inl ⟨rfl, if_pos rfl⟩
  · have hne : q ≠ p := by
      rintro rfl
      exact hid ((h.named.mp hq).2.symm.trans (h.named.mp hlookup).2)
    rw [if_neg hne]
    exact .inr ⟨hid, mem_member.mpr ⟨q, hq, rfl⟩⟩

theorem member_removeLocked (h : Wf s) (hm : m ∈ (s.removeLocked id).member id') :
    id' ≠ id ∧ ∃ m₀ ∈ s.member id', m₀.Alike m := by
  cases hlookup : s.members.lookup id with
  | none =>
    rw [removeLocked, hlookup] at hm
    refine ⟨?_, m, hm, _, rfl⟩
    rintro rfl
    exact notMem_member hlookup hm
  | some p =>
    obtain ⟨-, -, hsame, hmembers, -⟩ := removeLocked_spec h hlookup
    obtain ⟨q, hq, rfl⟩ := mem_member.mp hm
    rw [hmembers, Assoc.lookup_erase_ite] at hq
    split at hq
    · cases hq
    · next hne => exact ⟨hne, s.store q, mem_member.mpr ⟨q, hq, rfl⟩, hsame q⟩

theorem member_sweep {missLimit : Int} {order : List String} (h : Wf s)
    (hm : m ∈ (s.sweepHeartbeats missLimit order).member id) : ∃ m₀ ∈ s.member id, m₀.Alike m := by
  unfold sweepHeartbeats at hm
  induction order generalizing s with
  | nil => exact ⟨m, hm, _, rfl⟩
  | cons id' order ih =>
    rw [List.foldl_cons] at hm
    split at hm
    · exact ih h hm
    · split at hm
      · obtain ⟨m₁, hm₁, halike⟩ := ih (kept_removeLocked ⟨h, .refl s⟩).1 hm
        obtain ⟨-, m₀, hm₀, halike₀⟩ := member_removeLocked h hm₁
        exact ⟨m₀, hm₀, halike₀.trans halike⟩
      · exact ih h hm

theorem member_register {address : String} {declaredRPS : ℚ} {interval : Int} (h : Wf s)
    (hlookup : s.members.lookup id = none)
    (hm : m ∈ (s.register id address declaredRPS interval).member id') :
    (s.newMember id address declaredRPS interval).Alike m ∨ ∃ m₀ ∈ s.member id', m₀.Alike m := by
  obtain ⟨hwf, hperm, hnew, hsame, -⟩ := register_new address declaredRPS interval h hlookup
  obtain ⟨q, hq, rfl⟩ := mem_member.mp hm
  obtain ⟨hmem, hid⟩ := hwf.named.mp hq
  rcases List.mem_append.mp (hperm.mem_iff.mp hmem) with hqs | hqs
  · refine .inr ⟨s.store q, mem_member.mpr ⟨q, ?_, rfl⟩, hsame q hqs⟩
    exact h.named.mpr ⟨hqs, (hsame q hqs).fields.1.symm.trans hid⟩
  · rw [List.mem_singleton.mp hqs]
    exact .inl hnew

theorem member_pick (h : Wf s) (hm : m ∈ s.pick.1.member id) :
    ∃ m₀ ∈ s.member id, m.reputation = m₀.reputation ∧ m.floorSince = m₀.floorSince := by
  by_cases hlen : s.h.length = 0
  · rw [pick, if_pos hlen] at hm
    exact ⟨m, hm, rfl, rfl⟩
  · obtain ⟨-, -, hmoved⟩ := pick_spec h hlen
    obtain ⟨q, hq, rfl⟩ := mem_member.mp hm
    obtain ⟨-, -, -, hreputation, hsince⟩ := (hmoved.store q).fields
    have hq : s.members.lookup id = some q := by
      rw [hmoved.members] at hq
      exact hq
    refine ⟨s.store q, mem_member.mpr ⟨q, hq, rfl⟩, hreputation.trans ?_, hsince.trans ?_⟩ <;>
    · rw [store_modify]
      split
      · next heq => rw [heq]
      · rfl

/-- What a failure leaves of a member that is still there: its reputation is halved, and its timer
is cleared, started or left running. -/
theorem member_recordFailure (h : Wf s) (hm : m ∈ (s.recordFailure id).1.member id') :
    (id' ≠ id ∧ ∃ m₀ ∈ s.member id', m₀.Alike m) ∨
      (id' = id ∧ ∃ m₀ ∈ s.member id, m.reputation = m₀.reputation * (1 / 2) ∧
        (m.floorSince ≠ none → m.reputation ≤ reputationFloor ∧
          (m.floorSince = some s.now ∨ m.floorSince = m₀.floorSince))) := by
  cases hlookup : s.members.lookup id with
  | none =>
    rw [recordFailure, hlookup] at hm
    refine .inl ⟨?_, m, hm, _, rfl⟩
    rintro rfl
    exact notMem_member hlookup hm
  | some p =>
    have hmem : s.store p ∈ s.member id := mem_member.mpr ⟨p, hlookup, rfl⟩
    set halved := s.modify p fun m => { m with reputation := m.reputation * (1 / 2) } with hhalved
    have hwf : Wf halved := wf_modify (fun _ => rfl) (fun _ => rfl) (fun _ => rfl) h
    have hstore : halved.store p =
      { s.store p with reputation := (s.store p).reputation * (1 / 2) } := by
      rw [hhalved, store_modify, if_pos rfl]
    -- the first write leaves the others, which the second one may move
    have hother : ∀ {m}, id' ≠ id → m ∈ halved.member id' → m ∈ s.member id' :=
      fun hid hm => ((member_modify h hlookup hm).resolve_left fun heq => hid heq.1).2
    have hlookup' : halved.members.lookup id = some p := hlookup
    rw [recordFailure, hlookup] at hm
    dsimp only at hm
    rw [← hhalved] at hm
    split at hm
    · next hlow =>
      rw [hstore] at hlow
      split at hm
      · rcases member_modify hwf hlookup' hm with ⟨hid, rfl⟩ | ⟨hid, hm⟩
        · rw [hstore]
          exact .inr ⟨hid, _, hmem, rfl, fun _ => ⟨hlow, .inl rfl⟩⟩
        · exact .inl ⟨hid, m, hother hid hm, _, rfl⟩
      · split at hm
        · obtain ⟨hid, m₀, hm₀, halike⟩ := member_removeLocked hwf hm
          exact .inl ⟨hid, m₀, hother hid hm₀, halike⟩
        · rcases member_modify h hlookup hm with ⟨hid, rfl⟩ | ⟨hid, hm⟩
          · exact .inr ⟨hid, _, hmem, rfl, fun _ => ⟨hlow, .inr rfl⟩⟩
          · exact .inl ⟨hid, m, hm, _, rfl⟩
    · rcases member_modify hwf hlookup' hm with ⟨hid, rfl⟩ | ⟨hid, hm⟩
      · rw [hstore]
        exact .inr ⟨hid, _, hmem, rfl, fun hsince => absurd rfl hsince⟩
      · exact .inl ⟨hid, m, hother hid hm, _, rfl⟩

theorem now_removeLocked (h : Wf s) : (s.removeLocked id).now = s.now := by
  cases hlookup : s.members.lookup id with
  | none => rw [removeLocked, hlookup]
  | some p => exact (removeLocked_spec h hlookup).2.2.2.2

theorem now_recordFailure (h : Wf s) : (s.recordFailure id).1.now = s.now := by
  unfold recordFailure
  split
  · rfl
  · dsimp only
    split
    · split
      · rfl
      · split
        · refine now_removeLocked ?_
          exact wf_modify (fun _ => rfl) (fun _ => rfl) (fun _ => rfl) h
        · rfl
    · rfl

/-- No heartbeat lifts a member whose timer runs over the floor. -/
def NoLift (s : Pool) : Event → Prop
  | .register id _ _ _ => ∀ m ∈ s.member id, m.floorSince ≠ none →
      min 1 (m.reputation * heartbeatRecoveryFactor) ≤ reputationFloor
  | _ => True

instance : Decidable (NoLift s e) := by
  unfold NoLift
  split <;> infer_instance

def Timed (s : Pool) : Prop :=
  ∀ {id m}, m ∈ s.member id → m.floorSince ≠ none → m.reputation ≤ reputationFloor

/-- A member's timer was started by the event or ran before, and then the event is no success of
the member. -/
def Running (s : Pool) (e : Event) (t : Pool) (id : String) (m : PoolMember) : Prop :=
  m.reputation ≤ reputationFloor ∧ (m.floorSince = some t.now ∨
    ∃ m₀ ∈ s.member id, m.floorSince = m₀.floorSince ∧ e ≠ .recordSuccess id)

theorem timer_step (h : Wf s) (htimed : Timed s) (hlift : NoLift s e) (hstep : step s e = some t)
    (hm : m ∈ t.member id) (hsince : m.floorSince ≠ none) : Running s e t id m := by
  have hkeep : ∀ {m₀}, m₀ ∈ s.member id → m.reputation = m₀.reputation →
      m.floorSince = m₀.floorSince → e ≠ .recordSuccess id → Running s e t id m := by
    intro m₀ hm₀ hreputation heq hne
    exact ⟨hreputation ▸ htimed hm₀ (heq ▸ hsince), .inr ⟨m₀, hm₀, heq, hne⟩⟩
  have halike : (∃ m₀ ∈ s.member id, m₀.Alike m) → e ≠ .recordSuccess id →
      Running s e t id m := by
    rintro ⟨m₀, hm₀, halike⟩ hne
    obtain ⟨-, -, -, hreputation, heq⟩ := halike.fields
    exact hkeep hm₀ hreputation heq hne
  cases e with
  | advance d =>
    cases hstep
    exact hkeep hm rfl rfl (by simp)
  | register id' address declaredRPS interval =>
    cases hstep
    cases hlookup : s.members.lookup id' with
    | none =>
      rcases member_register h hlookup hm with hnew | hold
      · exact absurd hnew.fields.2.2.2.2 hsince
      · exact halike hold (by simp)
    | some p =>
      rw [register, hlookup] at hm
      rcases member_modify h hlookup hm with ⟨rfl, rfl⟩ | ⟨-, hm⟩
      · have hmem : s.store p ∈ s.member id := mem_member.mpr ⟨p, hlookup, rfl⟩
        exact ⟨hlift _ hmem hsince, .inr ⟨_, hmem, rfl, by simp⟩⟩
      · exact hkeep hm rfl rfl (by simp)
  | pick =>
    cases hstep
    obtain ⟨m₀, hm₀, hreputation, heq⟩ := member_pick h hm
    exact hkeep hm₀ hreputation heq (by simp)
  | recordSuccess id' =>
    cases hstep
    cases hlookup : s.members.lookup id' with
    | none =>
      rw [recordSuccess, hlookup] at hm
      refine hkeep hm rfl rfl ?_
      rintro ⟨⟩
      exact notMem_member hlookup hm
    | some p =>
      rw [recordSuccess, hlookup] at hm
      rcases member_modify h hlookup hm with ⟨rfl, rfl⟩ | ⟨hid, hm⟩
      · exact absurd rfl hsince
      · exact hkeep hm rfl rfl fun heq => hid (Event.recordSuccess.inj heq).symm
  | recordFailure id' =>
    cases hstep
    rcases member_recordFailure h hm with ⟨-, hold⟩ | ⟨rfl, m₀, hm₀, -, hlow⟩
    · exact halike hold (by simp)
    · obtain ⟨hlow, hstart | heq⟩ := hlow hsince
      · exact ⟨hlow, .inl (hstart.trans (congrArg some (now_recordFailure h).symm))⟩
      · exact ⟨hlow, .inr ⟨m₀, hm₀, heq, by simp⟩⟩
  | remove id' =>
    cases hstep
    exact halike (member_removeLocked h hm).2 (by simp)
  | sweep missLimit order =>
    obtain ⟨-, ⟨⟩⟩ := Option.ite_none_right_eq_some.mp hstep
    exact halike (member_sweep h hm) (by simp)

theorem timed_empty : Timed {} := by
  intro id m hm
  simp [member] at hm

theorem timed_step (h : Wf s ∧ Timed s) (hlift : NoLift s e) (hstep : step s e = some t) :
    Wf t ∧ Timed t :=
  ⟨(step_spec h.1 hstep).1, fun hm hsince => (timer_step h.1 h.2 hlift hstep hm hsince).1⟩

def Low (id : String) (s : Pool) : Prop := ∃ m ∈ s.member id, m.reputation ≤ reputationFloor

/-- The member is at or below the floor, and the event is no success of it. -/
def Failing (id : String) (s : Pool) (e : Event) : Prop := Low id s ∧ e ≠ .recordSuccess id

instance : Decidable (Low id s) := by
  unfold Low
  infer_instance

instance : Decidable (Failing id s e) := by
  unfold Failing
  infer_instance

/-- An eviction finds a timer that has run for the window. -/
theorem timer_of_evicted (hevict : (s.recordFailure id).2 = true) :
    ∃ m ∈ s.member id, ∃ since, m.floorSince = some since ∧
    since + floorEvictionWindow ≤ s.now := by
  unfold recordFailure at hevict
  split at hevict
  · cases hevict
  · next p hlookup =>
    dsimp only at hevict
    split at hevict
    · split at hevict
      · cases hevict
      · next since hsince =>
        split at hevict
        · next hlong =>
          rw [store_modify, if_pos rfl] at hsince
          exact ⟨s.store p, mem_member.mpr ⟨p, hlookup, rfl⟩, since, hsince, hlong⟩
        · cases hevict
    · cases hevict

/-- Where no heartbeat lifts a member with a running timer over the floor, a failure evicts a member
only if some state at least the window ago began a stretch, up to the failure, in which the member
was at or below the floor throughout and had no success. -/
theorem eviction_after_sustained_failure (hrun : Trace.exec step {} es = some s)
    (hlift : Trace.Along step NoLift {} es) (hevict : (s.recordFailure id).2 = true) :
    ∃ before during u, es = before ++ during ∧ Trace.exec step {} before = some u ∧
      Trace.exec step u during = some s ∧ u.now + floorEvictionWindow ≤ s.now ∧
        Trace.Along step (Failing id) u during ∧ Low id s := by
  obtain ⟨m, hm, since, hsince, hlong⟩ := timer_of_evicted hevict
  have htimed : Wf s ∧ Timed s := Trace.exec_invariant timed_step ⟨wf_empty, timed_empty⟩ hlift hrun
  -- The timer's value names the state the stretch begins in.
  have hsplit := Trace.exec_since (I := fun s => Wf s ∧ Timed s)
    (Q := fun s => ∃ m ∈ s.member id, m.floorSince = some since) (S := fun u => u.now = since)
    (G := NoLift) (K := Failing id) timed_step ?_ ⟨wf_empty, timed_empty⟩ hlift hrun
    ⟨m, hm, hsince⟩
  · rcases hsplit with ⟨⟨m, hm, -⟩, -⟩ | ⟨before, during, u, heq, hu, hduring, hnow, halong⟩
    · simp [member] at hm
    · refine ⟨before, during, u, heq, hu, hduring, hnow.symm ▸ hlong, halong, m, hm, ?_⟩
      exact htimed.2 hm (by rw [hsince]; exact Option.some_ne_none since)
  · rintro s t e ⟨hwf, htimed⟩ hlift hstep ⟨m, hm, hsince⟩
    have hne : m.floorSince ≠ none := by rw [hsince]; exact Option.some_ne_none since
    obtain ⟨-, hstart | ⟨m₀, hm₀, heq, hsuccess⟩⟩ := timer_step hwf htimed hlift hstep hm hne
    · exact .inl (Option.some.inj (hstart.symm.trans hsince))
    · refine .inr ⟨⟨m₀, hm₀, heq.symm.trans hsince⟩, ⟨m₀, hm₀, ?_⟩, hsuccess⟩
      exact htimed hm₀ (heq ▸ hne)

/-- Five failures and another one twelve seconds later evict a member. -/
theorem eviction_after_six_failures :
    ∃ s, Trace.exec step {} (.register "a" "" 1 0 :: List.replicate 5 (.recordFailure "a") ++
        [.advance 12000000000]) = some s ∧ (s.recordFailure "a").2 = true ∧
      ∃ u during, Trace.exec step u during = some s ∧ u.now + floorEvictionWindow ≤ s.now ∧
        Trace.Along step (Failing "a") u during ∧ Low "a" s := by
  obtain ⟨s, hs⟩ : ∃ s, Trace.exec step {} (.register "a" "" 1 0 ::
      List.replicate 5 (.recordFailure "a") ++ [.advance 12000000000]) = some s := ⟨_, rfl⟩
  have hevict : ∀ s ∈ Trace.exec step {} (.register "a" "" 1 0 ::
      List.replicate 5 (.recordFailure "a") ++ [.advance 12000000000]),
      (s.recordFailure "a").2 = true := by decide +kernel
  obtain ⟨-, during, u, -, -, hduring⟩ :=
    eviction_after_sustained_failure hs (by decide +kernel) (hevict s hs)
  exact ⟨s, hs, hevict s hs, u, during, hduring⟩

/-- Five failures start the timer, and five heartbeats lift the member over the floor without
clearing it. It stays there for twelve seconds, and one more failure evicts it. -/
theorem heartbeats_leave_timer_running :
    ∃ s, Trace.exec step {} (.register "a" "" 1 0 :: List.replicate 5 (.recordFailure "a") ++
        List.replicate 5 (.register "a" "" 1 0)) = some s ∧ ¬Low "a" s ∧
      ∃ t, Trace.exec step s [.advance 12000000000] = some t ∧ ¬Low "a" t ∧
        (t.recordFailure "a").2 = true := by
  have hrun : ∀ s ∈ Trace.exec step {} (.register "a" "" 1 0 ::
      List.replicate 5 (.recordFailure "a") ++ List.replicate 5 (.register "a" "" 1 0)),
      ¬Low "a" s ∧ ∀ t ∈ Trace.exec step s [.advance 12000000000], ¬Low "a" t ∧
        (t.recordFailure "a").2 = true := by decide +kernel
  obtain ⟨s, hs⟩ : ∃ s, Trace.exec step {} (.register "a" "" 1 0 ::
      List.replicate 5 (.recordFailure "a") ++ List.replicate 5 (.register "a" "" 1 0)) = some s :=
    ⟨_, rfl⟩
  obtain ⟨hlow, hthen⟩ := hrun s hs
  exact ⟨s, hs, hlow, _, rfl, hthen _ rfl⟩

end Aquifer.Pool
