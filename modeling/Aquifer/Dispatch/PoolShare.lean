import Aquifer.Dispatch.Pool

/-! How a pool's picks divide between its members while their weights stay the same. -/
namespace Aquifer.Pool

variable {s t u : Pool} {e : Event} {es : List Event} {p q : Nat} {id : String}

def Kept (s t : Pool) : Prop :=
  ∀ q ∈ t.h, q ∈ s.h ∧ (t.store q).id = (s.store q).id ∧ t.position q = s.position q

theorem Kept.refl (s : Pool) : Kept s s := fun _ hq => ⟨hq, rfl, rfl⟩

theorem Kept.trans (h : Kept s t) (h' : Kept t u) : Kept s u := by
  intro q hq
  obtain ⟨hqt, hid, hposition⟩ := h' q hq
  obtain ⟨hqs, hid', hposition'⟩ := h q hqt
  exact ⟨hqs, hid.trans hid', hposition.trans hposition'⟩

theorem kept_modify {f : PoolMember → PoolMember} (hid : ∀ m, (f m).id = m.id)
    (hindex : ∀ m, (f m).heapIndex = m.heapIndex)
    (hposition : ∀ m, (f m).virtualPosition = m.virtualPosition) (h : Wf t ∧ Kept s t) :
    Wf (t.modify p f) ∧ Kept s (t.modify p f) := by
  refine ⟨wf_modify hid hindex hposition h.1, h.2.trans fun q hq => ⟨hq, ?_⟩⟩
  unfold position
  rw [store_modify]
  split
  · next heq => exact heq ▸ ⟨hid _, hposition _⟩
  · exact ⟨rfl, rfl⟩

theorem kept_removeLocked (h : Wf t ∧ Kept s t) :
    Wf (t.removeLocked id) ∧ Kept s (t.removeLocked id) := by
  cases hlookup : t.members.lookup id with
  | none =>
    rw [removeLocked, hlookup]
    exact h
  | some p =>
    obtain ⟨hwf, hperm, hsame, -⟩ := removeLocked_spec h.1 hlookup
    refine ⟨hwf, h.2.trans fun q hq => ⟨hperm.mem_iff.mpr (List.mem_cons_of_mem _ hq), ?_⟩⟩
    exact ⟨(hsame q).fields.1, (hsame q).fields.2.1⟩

theorem kept_recordSuccess (h : Wf s) : Wf (s.recordSuccess id) ∧ Kept s (s.recordSuccess id) := by
  unfold recordSuccess
  split
  · exact ⟨h, .refl s⟩
  · exact kept_modify (fun _ => rfl) (fun _ => rfl) (fun _ => rfl) ⟨h, .refl s⟩

theorem kept_recordFailure (h : Wf s) :
    Wf (s.recordFailure id).1 ∧ Kept s (s.recordFailure id).1 := by
  unfold recordFailure
  split
  · exact ⟨h, .refl s⟩
  · next p _ =>
    have hhalved : Wf (s.modify p fun m => { m with reputation := m.reputation * (1 / 2) }) ∧
        Kept s (s.modify p fun m => { m with reputation := m.reputation * (1 / 2) }) :=
      kept_modify (fun _ => rfl) (fun _ => rfl) (fun _ => rfl) ⟨h, .refl s⟩
    dsimp only
    split
    · split
      · dsimp only
        exact kept_modify (fun _ => rfl) (fun _ => rfl) (fun _ => rfl) hhalved
      · split
        · exact kept_removeLocked hhalved
        · exact hhalved
    · dsimp only
      exact kept_modify (fun _ => rfl) (fun _ => rfl) (fun _ => rfl) hhalved

theorem kept_sweep {missLimit : Int} {order : List String} (h : Wf t ∧ Kept s t) :
    Wf (t.sweepHeartbeats missLimit order) ∧ Kept s (t.sweepHeartbeats missLimit order) := by
  unfold sweepHeartbeats
  induction order generalizing t with
  | nil => exact h
  | cons id order ih =>
    rw [List.foldl_cons]
    split
    · exact ih h
    · split
      · exact ih (kept_removeLocked h)
      · exact ih h

def picked (s : Pool) : Event → Option Nat
  | .pick => s.pick.2
  | _ => none

theorem picked_eq_some (h : s.picked e = some p) : e = .pick ∧ s.h.length ≠ 0 ∧ p = s.slot 0 := by
  cases e with
  | pick =>
    simp only [picked, pick] at h
    split at h
    · cases h
    · next hlen =>
      cases h
      exact ⟨rfl, hlen, rfl⟩
  | _ => cases h

/-- Where an event leaves the members: one that was there moves on by `1 / weight` if it is picked,
and a new one starts at the root's position. -/
def Carried (s : Pool) (e : Event) (t : Pool) : Prop :=
  ∀ q ∈ t.h, (q ∈ s.h ∧ (t.store q).id = (s.store q).id ∧
      t.position q = s.position q + if s.picked e = some q then 1 / (s.store q).weight else 0) ∨
    (t.position q = s.startPos ∧ s.members.lookup (t.store q).id = none)

theorem Kept.carried (h : Kept s t) (hpicked : s.picked e = none) : Carried s e t := by
  intro q hq
  obtain ⟨hqs, hid, hposition⟩ := h q hq
  exact .inl ⟨hqs, hid, by rw [hposition, hpicked, if_neg (by simp), add_zero]⟩

theorem carried_pick (h : Wf s) (hlen : s.h.length ≠ 0) : Carried s .pick s.pick.1 := by
  obtain ⟨-, hpicked, hmoved⟩ := pick_spec h hlen
  intro q hq
  obtain ⟨hid, hposition, -⟩ := (hmoved.store q).fields
  refine .inl ⟨hmoved.perm.mem_iff.mp hq, ?_, ?_⟩
  · rw [hid, store_modify]
    split
    · next heq => rw [heq]
    · rfl
  · unfold position
    rw [hposition, store_modify, picked, hpicked]
    by_cases heq : q = s.slot 0
    · subst heq
      rw [if_pos rfl, if_pos rfl]
    · rw [if_neg heq, if_neg fun h => heq (Option.some.inj h).symm, add_zero]

theorem carried_register {address : String} {declaredRPS : ℚ} {interval : Int} (h : Wf s)
    (hlookup : s.members.lookup id = none) :
    Carried s (.register id address declaredRPS interval)
      (s.register id address declaredRPS interval) := by
  obtain ⟨-, hperm, hnew, hsame, -⟩ := register_new address declaredRPS interval h hlookup
  intro q hq
  rcases List.mem_append.mp (hperm.mem_iff.mp hq) with hq | hq
  · obtain ⟨hid, hposition, -⟩ := (hsame q hq).fields
    exact .inl ⟨hq, hid, hposition.trans (add_zero _).symm⟩
  · rw [List.mem_singleton.mp hq]
    obtain ⟨hid, hposition, -⟩ := hnew.fields
    exact .inr ⟨hposition, by rw [hid]; exact hlookup⟩

theorem step_spec (h : Wf s) (hstep : step s e = some t) : Wf t ∧ Carried s e t := by
  have hkept : ∀ {t}, Wf t ∧ Kept s t → s.picked e = none → Wf t ∧ Carried s e t :=
    fun hk hpicked => ⟨hk.1, hk.2.carried hpicked⟩
  cases e with
  | advance d =>
    cases hstep
    exact hkept ⟨⟨{ h with }, h.ordered⟩, .refl s⟩ rfl
  | register id address declaredRPS interval =>
    cases hstep
    cases hlookup : s.members.lookup id with
    | none => exact ⟨(register_new _ _ _ h hlookup).1, carried_register h hlookup⟩
    | some p =>
      rw [register, hlookup]
      exact hkept (kept_modify (fun _ => rfl) (fun _ => rfl) (fun _ => rfl) ⟨h, .refl s⟩) rfl
  | pick =>
    cases hstep
    by_cases hlen : s.h.length = 0
    · have hpick : s.pick = (s, none) := by rw [pick, if_pos hlen]
      rw [hpick]
      exact hkept ⟨h, .refl s⟩ (by rw [picked, hpick])
    · exact ⟨(pick_spec h hlen).1, carried_pick h hlen⟩
  | recordSuccess id =>
    cases hstep
    exact hkept (kept_recordSuccess h) rfl
  | recordFailure id =>
    cases hstep
    exact hkept (kept_recordFailure h) rfl
  | remove id =>
    cases hstep
    exact hkept (kept_removeLocked ⟨h, .refl s⟩) rfl
  | sweep missLimit order =>
    obtain ⟨-, ⟨⟩⟩ := Option.ite_none_right_eq_some.mp hstep
    exact hkept (kept_sweep ⟨h, .refl s⟩) rfl

theorem wf_empty : Wf {} where
  indexed := by
    intro k hk
    cases hk
  named := by simp
  fresh := by simp
  ordered := by
    intro j _ hj
    cases hj

/-- No member is further ahead of the root than one pick takes it. -/
def Band (s : Pool) : Prop :=
  ∀ p ∈ s.h, s.position p ≤ s.position (s.slot 0) + 1 / (s.store p).weight

/-- The members that stay keep their weights. -/
def Steady (s : Pool) (e : Event) : Prop :=
  ∀ t ∈ step s e, ∀ p ∈ s.h, p ∈ t.h → (t.store p).weight = (s.store p).weight

instance : Decidable (Steady s e) := by
  unfold Steady
  infer_instance

theorem startPos_le (h : Wf s) (hp : p ∈ s.h) : s.startPos = s.position (s.slot 0) ∧
    s.startPos ≤ s.position p := by
  have hlen : 0 < s.h.length := List.length_pos_of_mem hp
  have hstart : s.startPos = s.position (s.slot 0) := by rw [startPos, if_pos hlen]
  exact ⟨hstart, hstart ▸ root_le h hp⟩

/-- A band above one level is a band above the root. -/
theorem band_of_level {m : ℚ} (h : ∀ p ∈ t.h, m ≤ t.position p ∧
    t.position p ≤ m + 1 / (t.store p).weight) : Band t := by
  intro p hp
  have hroot := (h _ (slot_mem (List.length_pos_of_mem hp))).1
  have hp := (h p hp).2
  linarith

theorem band_step (h : Wf s) (hband : Band s) (hsteady : Steady s e) (hstep : step s e = some t) :
    Band t := by
  refine band_of_level (m := s.startPos) fun q hq => ?_
  have hweight : (0 : ℚ) < 1 / (t.store q).weight := one_div_pos.mpr (PoolMember.weight_pos _)
  rcases (step_spec h hstep).2 q hq with ⟨hqs, -, hposition⟩ | ⟨hposition, -⟩
  · obtain ⟨hstart, hle⟩ := startPos_le h hqs
    rw [← hsteady t hstep q hqs hq] at hposition
    split at hposition
    · next hpicked =>
      obtain ⟨-, -, rfl⟩ := picked_eq_some hpicked
      rw [hposition, hstart]
      exact ⟨by linarith, le_rfl⟩
    · have hup := hband q hqs
      rw [← hsteady t hstep q hqs hq] at hup
      rw [hposition, hstart]
      exact ⟨by linarith, by linarith⟩
  · rw [hposition]
    exact ⟨le_rfl, by linarith⟩

theorem band_run (h : Wf s ∧ Band s) (hsteady : Trace.Along step Steady s es)
    (hrun : Trace.exec step s es = some t) : Wf t ∧ Band t :=
  Trace.exec_invariant (I := fun s => Wf s ∧ Band s)
    (fun h hok hstep => ⟨(step_spec h.1 hstep).1, band_step h.1 h.2 hok hstep⟩) h hsteady hrun

theorem band_empty : Wf {} ∧ Band {} := ⟨wf_empty, fun _ hp => absurd hp List.not_mem_nil⟩

def member (s : Pool) (id : String) : Option PoolMember := (s.members.lookup id).map s.store

def Stays (id : String) (s : Pool) (e : Event) : Prop := ∀ t ∈ step s e, (t.member id).isSome

instance : Decidable (Stays id s e) := by
  unfold Stays
  infer_instance

def pickedID (s : Pool) (e : Event) : Option String := (s.picked e).map fun p => (s.store p).id

/-- The members that the picks among the events return, in their order. -/
def returned : Pool → List Event → List String
  | _, [] => []
  | s, e :: es => (s.pickedID e).toList ++ (step s e).elim [] (returned · es)

def picks (id : String) (s : Pool) (es : List Event) : Nat := (s.returned es).count id

theorem pickedID_iff (h : Wf s) (hlookup : s.members.lookup id = some p) :
    s.pickedID e = some id ↔ s.picked e = some p := by
  rw [pickedID, Option.map_eq_some_iff]
  constructor
  · rintro ⟨r, hr, hrid⟩
    obtain ⟨-, hlen, rfl⟩ := picked_eq_some hr
    have hroot := h.named.mpr ⟨slot_mem (Nat.pos_of_ne_zero hlen), hrid⟩
    rw [hlookup] at hroot
    rw [hr, Option.some.inj hroot]
  · exact fun hpicked => ⟨p, hpicked, (h.named.mp hlookup).2⟩

/-- A member that stays through an event is the same one, and moves on by `1 / weight` if it is
picked. -/
theorem position_step (h : Wf s) (hsteady : Steady s e) (hstays : Stays id s e)
    (hstep : step s e = some t) (hlookup : s.members.lookup id = some p) :
    t.members.lookup id = some p ∧ (t.store p).weight = (s.store p).weight ∧
      t.position p = s.position p + (s.pickedID e).toList.count id / (s.store p).weight := by
  obtain ⟨hwf, hcarried⟩ := step_spec h hstep
  obtain ⟨q, hq⟩ : ∃ q, t.members.lookup id = some q := by
    have := hstays t hstep
    rwa [member, Option.isSome_map, Option.isSome_iff_exists] at this
  obtain ⟨hqt, hqid⟩ := hwf.named.mp hq
  have hps := (h.named.mp hlookup).1
  rcases hcarried q hqt with ⟨hqs, hid, hposition⟩ | ⟨-, hnew⟩
  · have hqp := h.named.mpr ⟨hqs, hid.symm.trans hqid⟩
    rw [hlookup] at hqp
    cases hqp
    refine ⟨hq, hsteady t hstep p hps hqt, hposition.trans ?_⟩
    have hcount : ∀ o : Option String, o.toList.count id = if o = some id then 1 else 0 := by
      rintro (_ | x) <;> simp [List.count_singleton]
    simp only [hcount, pickedID_iff h hlookup]
    split <;> simp
  · rw [hqid, hlookup] at hnew
    cases hnew

theorem position_run (h : Wf s) (hsteady : Trace.Along step Steady s es)
    (hstays : Trace.Along step (Stays id) s es) (hrun : Trace.exec step s es = some t)
    (hlookup : s.members.lookup id = some p) :
    t.members.lookup id = some p ∧ (t.store p).weight = (s.store p).weight ∧
      t.position p = s.position p + picks id s es / (s.store p).weight := by
  induction es generalizing s with
  | nil =>
    cases hrun
    refine ⟨hlookup, rfl, ?_⟩
    rw [picks, returned, List.count_nil, Nat.cast_zero, zero_div, add_zero]
  | cons e es ih =>
    obtain ⟨u, hu, hrest⟩ := Trace.exec_cons.mp hrun
    obtain ⟨hlook, hweight, hposition⟩ := position_step h hsteady.1 hstays.1 hu hlookup
    obtain ⟨hlook', hweight', hposition'⟩ :=
      ih (step_spec h hu).1 (hsteady.2 u hu) (hstays.2 u hu) hrest hlook
    refine ⟨hlook', hweight'.trans hweight, ?_⟩
    rw [hposition', hweight, hposition, picks, picks, returned, hu, Option.elim_some,
      List.count_append, Nat.cast_add, add_div, add_assoc]

/-- The positions of two members differ by at most one pick of the one that is ahead. -/
theorem position_sub_le (h : Wf s) (hband : Band s) (hp : p ∈ s.h) (hq : q ∈ s.h) :
    s.position p - s.position q ≤ 1 / (s.store p).weight := by
  have hlow := root_le h hq
  have hhigh := hband p hp
  linarith

/-- While the members of a pool keep their weights, the map and the heap hold the same members, each
member knows its slot, the root has the smallest position and no member is ahead of it by more than
`1 / weight`; a pick returns the root; and the picks of two members that stay are in the proportion
of their weights, up to one pick of each. -/
theorem picks_proportional {before during : List Event}
    (hbefore : Trace.exec step {} before = some s) (hduring : Trace.exec step s during = some t)
    (hsteady : Trace.Along step Steady {} before) (hsteady' : Trace.Along step Steady s during) :
    ((∀ id p, t.members.lookup id = some p ↔ p ∈ t.h ∧ (t.store p).id = id) ∧ t.h.Nodup ∧
      (∀ k (hk : k < t.h.length), (t.store t.h[k]).heapIndex = k) ∧
      (∀ p ∈ t.h, t.position (t.slot 0) ≤ t.position p ∧
        t.position p ≤ t.position (t.slot 0) + 1 / (t.store p).weight)) ∧
    (t.h ≠ [] → t.pick.2 = some (t.slot 0)) ∧
    ∀ i j a b, s.member i = some a → s.member j = some b →
      Trace.Along step (Stays i) s during → Trace.Along step (Stays j) s during →
      |picks i s during / a.weight - picks j s during / b.weight| ≤ 1 / a.weight +
        1 / b.weight := by
  obtain ⟨hwf, hband⟩ := band_run band_empty hsteady hbefore
  have hend : Wf t ∧ Band t := band_run ⟨hwf, hband⟩ hsteady' hduring
  refine ⟨⟨fun id p => hend.1.named, hend.1.indexed.nodup, ?_, ?_⟩, fun hne => ?_, ?_⟩
  · intro k hk
    rw [← slot_of_lt hk]
    exact hend.1.indexed k hk
  · intro p hp
    exact ⟨root_le hend.1 hp, hend.2 p hp⟩
  · exact (pick_spec hend.1 (by simpa using hne)).2.1
  · intro i j a b ha hb hi hj
    obtain ⟨p, hp, rfl⟩ := Option.map_eq_some_iff.mp ha
    obtain ⟨q, hq, rfl⟩ := Option.map_eq_some_iff.mp hb
    obtain ⟨hpt, hpw, hpp⟩ := position_run hwf hsteady' hi hduring hp
    obtain ⟨hqt, hqw, hqp⟩ := position_run hwf hsteady' hj hduring hq
    have hp := (hwf.named.mp hp).1
    have hq := (hwf.named.mp hq).1
    have hpt := (hend.1.named.mp hpt).1
    have hqt := (hend.1.named.mp hqt).1
    have h₁ := position_sub_le hwf hband hp hq
    have h₂ := position_sub_le hwf hband hq hp
    have h₃ := position_sub_le hend.1 hend.2 hpt hqt
    have h₄ := position_sub_le hend.1 hend.2 hqt hpt
    rw [hpp, hqp, hpw] at h₃
    rw [hpp, hqp, hqw] at h₄
    rw [abs_le]
    exact ⟨by linarith, by linarith⟩

/-- Members of rates 2 and 1, after a third one was evicted. -/
def evictedThird : List Event :=
  [.register "c" "" 1 0, .register "a" "" 2 0, .register "b" "" 1 0, .pick, .remove "c"]

/-- Of seven picks the first member has five and the second two; the eighth returns the root. -/
theorem picks_two_to_one :
    ∃ s t, Trace.exec step {} evictedThird = some s ∧
      Trace.exec step s (List.replicate 7 .pick) = some t ∧
      returned s (List.replicate 7 .pick) = ["a", "b", "a", "a", "b", "a", "a"] ∧
      t.h.Nodup ∧ t.pick.2 = some (t.slot 0) ∧
      |(picks "a" s (List.replicate 7 .pick) / 2 -
        picks "b" s (List.replicate 7 .pick) / 1 : ℚ)| ≤ 1 / 2 + 1 / 1 := by
  have hsteady : Trace.Along step Steady {} evictedThird := by decide +kernel
  obtain ⟨s, hs, ⟨t, ht, hne⟩, hreturned, hsteady', hstays, hstays', ⟨a, ha, hwa⟩, b, hb, hwb⟩ :
      ∃ s, Trace.exec step {} evictedThird = some s ∧
        (∃ t, Trace.exec step s (List.replicate 7 .pick) = some t ∧ t.h ≠ []) ∧
        returned s (List.replicate 7 .pick) = ["a", "b", "a", "a", "b", "a", "a"] ∧
        Trace.Along step Steady s (List.replicate 7 .pick) ∧
        Trace.Along step (Stays "a") s (List.replicate 7 .pick) ∧
        Trace.Along step (Stays "b") s (List.replicate 7 .pick) ∧
        (∃ a ∈ s.member "a", a.weight = 2) ∧ ∃ b ∈ s.member "b", b.weight = 1 := by
    decide +kernel
  obtain ⟨⟨-, hnodup, -⟩, hroot, hpicks⟩ := picks_proportional hs ht hsteady hsteady'
  have hpicks := hpicks "a" "b" a b ha hb hstays hstays'
  rw [hwa, hwb] at hpicks
  exact ⟨s, t, hs, ht, hreturned, hnodup, hroot hne, hpicks⟩

end Aquifer.Pool
