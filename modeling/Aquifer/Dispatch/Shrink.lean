import Aquifer.Dispatch.Budget

/-! How far a worker's backlog grows after its budget has dropped below it. -/
namespace Aquifer

/-- What is admitted under a positive budget stays within it, or within the ceiling. -/
theorem Admission.room_of_allowed {queuePending totalPending activeQueues ceilingFloor : Nat}
    {maxBacklog : Int} {draw : ℚ}
    (h : (decideFairWithFloor queuePending totalPending activeQueues maxBacklog ceilingFloor
      draw).allowed = true) (hpos : 0 < maxBacklog) :
    (totalPending + 1 : Int) ≤ maxBacklog ∨
      (totalPending + 1 : ℚ) ≤ fairCeiling * (max maxBacklog ceilingFloor : Int) := by
  by_cases hle : (totalPending + 1 : Int) ≤ maxBacklog
  · exact .inl hle
  · simp only [decideFairWithFloor, decideFair, if_neg (not_le.mpr hpos)] at h
    rw [if_pos (by push_cast; omega)] at h
    split at h
    · next hroom => exact .inr (by exact_mod_cast hroom.2.2)
    · cases h

namespace Budget

variable {s t : Budget} {e : Event} {v : Int} {key : String} {n : Nat}

theorem totalPending_reserveBacklog :
    (s.reserveBacklog key n).totalPending = s.totalPending + n := by
  have hsum := Assoc.sum_insert (m := s.queues) (k := key) (n := s.pending key + n)
  simp only [totalPending, reserveBacklog]
  unfold pending at hsum ⊢
  omega

theorem totalPending_drained : s.drained.totalPending = s.totalPending := by
  unfold drained
  split <;> rfl

/-- The worker's own count is ahead of its queues by the jobs that are being released. -/
def Counted (s : Budget) : Prop := s.backlog = s.totalPending + s.releasing

theorem counted_reserveBacklog (h : Counted s) : Counted (s.reserveBacklog key n) := by
  unfold Counted at h ⊢
  rw [totalPending_reserveBacklog]
  simp only [reserveBacklog]
  omega

theorem counted_drained (h : Counted s) : Counted s.drained := by
  unfold drained
  split <;> exact h

theorem counted_step (h : Counted s) (hstep : step s e = some t) : Counted t := by
  cases e with
  | signal v =>
    cases hstep
    exact h
  | submit key draw =>
    cases hstep
    simp only [reserve]
    split
    · exact counted_reserveBacklog (counted_drained h)
    · exact counted_drained h
  | enqueue key =>
    cases hstep
    exact counted_reserveBacklog h
  | attach key n =>
    obtain ⟨-, ⟨⟩⟩ := Option.ite_none_right_eq_some.mp hstep
    exact counted_reserveBacklog h
  | release key =>
    obtain ⟨hpos, ⟨⟩⟩ := Option.ite_none_right_eq_some.mp hstep
    have hsum := Assoc.sum_insert (m := s.queues) (k := key) (n := s.pending key - 1)
    simp only [Counted, totalPending] at h ⊢
    unfold pending at hpos hsum ⊢
    omega
  | settle =>
    obtain ⟨hpos, ⟨⟩⟩ := Option.ite_none_right_eq_some.mp hstep
    simp only [Counted, totalPending] at h ⊢
    omega
  | retire key =>
    obtain ⟨hzero, ⟨⟩⟩ := Option.ite_none_right_eq_some.mp hstep
    have hsum := Assoc.sum_erase (m := s.queues) (k := key)
    simp only [Counted, totalPending] at h ⊢
    unfold pending at hzero
    omega
  | mode on =>
    cases hstep
    exact h

theorem floor_drained_le : s.drained.shrinkFloor ≤ s.shrinkFloor := by
  unfold drained
  split
  · exact Nat.zero_le _
  · exact le_rfl

theorem room_of_allowed {draw : ℚ} (h : (s.fairDecision key draw).allowed = true)
    (hpos : 0 < s.maxBacklog) :
    (s.totalPending + 1 : Int) ≤ s.maxBacklog ∨
      (s.totalPending + 1 : ℚ) ≤ 5 / 4 * (max s.maxBacklog s.shrinkFloor : Int) := by
  refine (Admission.room_of_allowed h hpos).imp_right fun hroom => hroom.trans ?_
  have hle : (max s.maxBacklog s.drained.shrinkFloor : Int) ≤ max s.maxBacklog s.shrinkFloor :=
    max_le_max le_rfl (Int.ofNat_le.mpr floor_drained_le)
  rw [Admission.fairCeiling]
  gcongr

/-- A worker since its budget dropped below the backlog it held. `most` is the larger of that
backlog and the largest budget advertised since. -/
structure Shrunk where
  worker : Budget
  most : Int

namespace Shrunk

/-- The signal that takes the budget below the backlog. -/
def start (s : Budget) (v : Int) : Shrunk := ⟨s.setMaxBacklog v, s.backlog⟩

def step (s : Shrunk) (e : Event) : Option Shrunk :=
  (s.worker.step e).map fun worker =>
    { worker, most := match e with | .signal v => max s.most v | _ => s.most }

def enforced : Event → Bool
  | .enqueue _ | .attach .. => false
  | _ => true

/-- The backlog is not back within the budget, and no job enters unenforced. -/
def Over (s : Shrunk) (e : Event) : Prop :=
  0 < s.worker.maxBacklog ∧ s.worker.maxBacklog < s.worker.backlog ∧ enforced e = true

/-- A signal that lowers the budget below the backlog again finds no more than `most`. -/
def Once (s : Shrunk) : Event → Prop
  | .signal v => v < s.worker.maxBacklog → v < s.worker.backlog → s.worker.backlog ≤ s.most
  | _ => True

instance (s : Shrunk) (e : Event) : Decidable (Over s e) :=
  inferInstanceAs (Decidable (_ ∧ _ ∧ _))

instance (s : Shrunk) : (e : Event) → Decidable (Once s e)
  | .signal _ => inferInstanceAs (Decidable (_ → _ → _))
  | .submit .. | .enqueue _ | .attach .. | .release _ | .settle | .retire _ | .mode _ =>
    isTrue trivial

/-- What the budget and the floor leave room for. -/
structure Bounded (s : Shrunk) : Prop where
  counted : Counted s.worker
  budget : s.worker.maxBacklog ≤ s.most
  floor : s.worker.shrinkFloor ≤ s.most
  total : (s.worker.totalPending : ℚ) ≤ 5 / 4 * s.most

variable {s t : Shrunk}

theorem floor_setMaxBacklog_le {w : Budget} {most : Int} (hfloor : w.shrinkFloor ≤ most)
    (honce : v < w.maxBacklog → v < w.backlog → w.backlog ≤ most) (hnonneg : 0 ≤ most) :
    (w.setMaxBacklog v).shrinkFloor ≤ most := by
  simp only [setMaxBacklog]
  split
  · next h => exact honce h.1 h.2
  · split
    · split
      · push_cast
        omega
      · exact hnonneg
    · exact hfloor

theorem bounded_submit {w : Budget} {most : Int} {draw : ℚ} (h : Bounded ⟨w, most⟩)
    (hpos : 0 < w.maxBacklog) : Bounded ⟨(w.reserve key draw).1, most⟩ := by
  have hdrained : w.drained.maxBacklog = w.maxBacklog := by
    unfold drained
    split <;> rfl
  have hfloor : (w.drained.shrinkFloor : Int) ≤ most :=
    (Int.ofNat_le.mpr floor_drained_le).trans h.floor
  have hbudget : w.drained.maxBacklog ≤ most := hdrained ▸ h.budget
  simp only [reserve]
  split
  · next hallowed =>
    refine ⟨counted_reserveBacklog (counted_drained h.counted), hbudget, hfloor, ?_⟩
    dsimp only
    rw [totalPending_reserveBacklog, totalPending_drained]
    push_cast
    rcases room_of_allowed hallowed hpos with hroom | hroom
    · have hle : ((w.totalPending + 1 : Int) : ℚ) ≤ most := by
        exact_mod_cast hroom.trans h.budget
      have hmost : (0 : ℚ) ≤ most := by exact_mod_cast hpos.le.trans h.budget
      push_cast at hle
      linarith
    · refine hroom.trans ?_
      have hmax : max w.maxBacklog (w.shrinkFloor : Int) ≤ most := max_le h.budget h.floor
      gcongr
  · refine ⟨counted_drained h.counted, hbudget, hfloor, ?_⟩
    dsimp only
    rw [totalPending_drained]
    exact h.total

/-- Completions and queues that come and go only lower the total. -/
theorem bounded_of_le {w u : Budget} {most : Int} (h : Bounded ⟨w, most⟩) (hcounted : Counted u)
    (hbudget : u.maxBacklog = w.maxBacklog) (hfloor : u.shrinkFloor = w.shrinkFloor)
    (hle : u.totalPending ≤ w.totalPending) : Bounded ⟨u, most⟩ := by
  refine ⟨hcounted, hbudget ▸ h.budget, hfloor ▸ h.floor, ?_⟩
  have hcast : (u.totalPending : ℚ) ≤ w.totalPending := by exact_mod_cast hle
  exact hcast.trans h.total

theorem bounded_step (h : Bounded s) (hok : Over s e ∧ Once s e) (hstep : s.step e = some t) :
    Bounded t := by
  obtain ⟨⟨hpos, hover, henforced⟩, honce⟩ := hok
  obtain ⟨u, hu, rfl⟩ := Option.map_eq_some_iff.mp hstep
  have hcounted : Counted u := counted_step h.counted hu
  cases e with
  | signal v =>
    cases hu
    have hmost : (s.most : ℚ) ≤ (max s.most v : Int) := by exact_mod_cast le_max_left _ _
    refine ⟨hcounted, le_max_right _ _, ?_, ?_⟩
    · have hnonneg : 0 ≤ s.most := hpos.le.trans h.budget
      exact (floor_setMaxBacklog_le h.floor honce hnonneg).trans (le_max_left _ _)
    · exact h.total.trans (by gcongr)
  | submit key draw =>
    cases hu
    exact bounded_submit h hpos
  | enqueue key => cases henforced
  | attach key n => cases henforced
  | release key =>
    obtain ⟨hpending, ⟨⟩⟩ := Option.ite_none_right_eq_some.mp hu
    refine bounded_of_le h hcounted rfl rfl ?_
    have hsum := Assoc.sum_insert (m := s.worker.queues) (k := key)
      (n := s.worker.pending key - 1)
    simp only [totalPending]
    unfold pending at hpending hsum ⊢
    omega
  | settle =>
    obtain ⟨-, ⟨⟩⟩ := Option.ite_none_right_eq_some.mp hu
    exact bounded_of_le h hcounted rfl rfl le_rfl
  | retire key =>
    obtain ⟨-, ⟨⟩⟩ := Option.ite_none_right_eq_some.mp hu
    refine bounded_of_le h hcounted rfl rfl ?_
    have hsum := Assoc.sum_erase (m := s.worker.queues) (k := key)
    simp only [totalPending]
    omega
  | mode on =>
    cases hu
    exact bounded_of_le h hcounted rfl rfl le_rfl

end Shrunk

/-- From the signal that first takes the budget below the backlog until the backlog is back within
it, the total stays within a quarter more than the larger of what was held and the largest budget
since, provided no later signal lowers the budget while more than that is held. -/
theorem shrunken_budget_bounds_growth {b : Int} {before after : List Event} {u : Shrunk}
    (hbefore : Trace.exec step { maxBacklog := b } before = some s)
    (hwithin : s.maxBacklog ≤ 0 ∨ (s.backlog : Int) ≤ s.maxBacklog) (hpos : 0 < v)
    (hbelow : v < s.backlog) (hafter : Trace.exec Shrunk.step (.start s v) after = some u)
    (hok : Trace.Along Shrunk.step (fun s e => s.Over e ∧ s.Once e) (.start s v) after) :
    (u.worker.totalPending : ℚ) ≤ 5 / 4 * u.most := by
  have hnew : Counted { maxBacklog := b } := rfl
  have hcounted : Counted s := Trace.exec_always counted_step hnew hbefore
  have hstart : Shrunk.Bounded (.start s v) := by
    refine ⟨hcounted, hbelow.le, ?_, ?_⟩
    · simp only [Shrunk.start, setMaxBacklog]
      split
      · exact le_rfl
      · split
        · split
          · push_cast
            omega
          · exact Int.natCast_nonneg _
        · omega
    · have hle : (s.totalPending : ℚ) ≤ s.backlog := by
        exact_mod_cast Nat.le.intro hcounted.symm
      have hnonneg : (0 : ℚ) ≤ s.backlog := by positivity
      change (s.totalPending : ℚ) ≤ 5 / 4 * ((s.backlog : Int) : ℚ)
      push_cast
      linarith
  exact (Trace.exec_invariant Shrunk.bounded_step hstart hok
    hafter).total

/-- Eight jobs of one tenant are held when a budget of 8 becomes 6; a second cut finds no more, and
a small tenant then fills the quarter above them. -/
def cutTwice : List Event := [.signal 5, .submit "b" 0, .submit "b" 0, .submit "b" 0]

theorem shrunken_budget_fills_quarter :
    ∃ s, Trace.exec step { maxBacklog := 8 } (List.replicate 8 (.submit "a" 0)) = some s ∧
      s.backlog = 8 ∧ ∃ u, Trace.exec Shrunk.step (.start s 6) cutTwice = some u ∧
      u.worker.maxBacklog = 5 ∧ u.worker.totalPending = 10 ∧
      (u.worker.totalPending : ℚ) ≤ 5 / 4 * u.most := by
  have hrun : ∃ s, Trace.exec step { maxBacklog := 8 } (List.replicate 8 (.submit "a" 0)) = some s ∧
      s.backlog = 8 ∧ s.maxBacklog = 8 ∧ ∃ u, Trace.exec Shrunk.step (.start s 6) cutTwice =
        some u ∧
      u.worker.maxBacklog = 5 ∧ u.worker.totalPending = 10 ∧
      Trace.Along Shrunk.step (fun s e => s.Over e ∧ s.Once e) (.start s 6) cutTwice := by
    decide +kernel
  obtain ⟨s, hbefore, hheld, hmax, u, hafter, hcut, htotal, hok⟩ := hrun
  exact ⟨s, hbefore, hheld, u, hafter, hcut, htotal, shrunken_budget_bounds_growth hbefore
    (.inr (by omega)) (by decide) (by omega) hafter hok⟩

/-- A second cut, from 6 to 5, takes the ten jobs held by then as the new floor, and an eleventh job
enters. -/
theorem second_cut_raises_ceiling :
    ∃ s, Trace.exec step { maxBacklog := 8 } (List.replicate 8 (.submit "a" 0)) = some s ∧
      s.backlog = 8 ∧ s.maxBacklog = 8 ∧ ∃ u, Trace.exec Shrunk.step (.start s 6)
        [.submit "b" 0, .submit "b" 0, .signal 5, .submit "c" 0] = some u ∧
      Trace.Along Shrunk.step Shrunk.Over (.start s 6)
        [.submit "b" 0, .submit "b" 0, .signal 5, .submit "c" 0] ∧
      5 / 4 * (u.most : ℚ) < u.worker.totalPending := by
  decide +kernel

end Budget

end Aquifer
