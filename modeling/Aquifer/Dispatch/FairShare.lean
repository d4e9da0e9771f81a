import Mathlib.Tactic.Positivity
import Aquifer.Dispatch.Budget

/-! What a fair admission refuses, and how the refusal moves with the backlogs and the floor. -/
namespace Aquifer.Admission

variable {queuePending queuePending' totalPending totalPending' activeQueues : Nat}
variable {ceilingFloor ceilingFloor' : Nat} {maxBacklog : Int} {draw : ℚ}

/-- How full the budget is above `fairStart`, on a scale from 0 to 1. -/
def pressure (projectedTotal : Nat) (maxBacklog : Int) : ℚ :=
  clamp ((projectedTotal - fairStart * maxBacklog) / (maxBacklog - fairStart * maxBacklog)) 0 1

/-- How far a queue is over its share, on a scale from 0 to 1. -/
def excess (projectedQueue : Nat) (fairShare : ℚ) : ℚ :=
  clamp ((projectedQueue - fairShare) / fairShare) 0 1

theorem clamp_mono {value value' low high : ℚ} (h : value ≤ value') :
    clamp value low high ≤ clamp value' low high :=
  max_le_max le_rfl (min_le_min h le_rfl)

theorem low_le_clamp {value low high : ℚ} : low ≤ clamp value low high := le_max_left _ _

theorem clamp_of_le_low {value low high : ℚ} (h : value ≤ low) : clamp value low high = low :=
  max_eq_left ((min_le_left _ _).trans h)

theorem pressure_nonneg {n : Nat} : 0 ≤ pressure n maxBacklog := low_le_clamp

theorem excess_nonneg {n : Nat} {share : ℚ} : 0 ≤ excess n share := low_le_clamp

theorem pressure_mono (hpos : 0 < maxBacklog) {n m : Nat} (h : n ≤ m) :
    pressure n maxBacklog ≤ pressure m maxBacklog := by
  have hbudget : (0 : ℚ) < maxBacklog := by exact_mod_cast hpos
  have hroom : (0 : ℚ) ≤ maxBacklog - fairStart * maxBacklog := by
    rw [fairStart]
    linarith
  refine clamp_mono (div_le_div_of_nonneg_right ?_ hroom)
  have : (n : ℚ) ≤ m := by exact_mod_cast h
  linarith

theorem excess_mono {share : ℚ} (hshare : 0 ≤ share) {n m : Nat} (h : n ≤ m) :
    excess n share ≤ excess m share := by
  refine clamp_mono (div_le_div_of_nonneg_right ?_ hshare)
  have : (n : ℚ) ≤ m := by exact_mod_cast h
  linarith

theorem excess_eq_zero {share : ℚ} (hshare : 0 ≤ share) {n : Nat} (h : (n : ℚ) ≤ share) :
    excess n share = 0 :=
  clamp_of_le_low (div_nonpos_of_nonpos_of_nonneg (by linarith) hshare)

/-- Under a positive budget a request is refused past the budget, where its queue is over its share
or the ceiling is reached, and within the budget where the draw falls below pressure times
excess. -/
theorem refused_iff (hpos : 0 < maxBacklog) :
    (decideFairWithFloor queuePending totalPending activeQueues maxBacklog ceilingFloor
        draw).allowed = false ↔
      (maxBacklog < totalPending + 1 ∧ ¬(1 < activeQueues ∧
        ((queuePending + 1 : Nat) : ℚ) ≤ maxBacklog / (max activeQueues 1 : Nat) ∧
        ((totalPending + 1 : Nat) : ℚ) ≤ fairCeiling * max maxBacklog ceilingFloor)) ∨
      ((totalPending + 1 : Int) ≤ maxBacklog ∧ 1 < activeQueues ∧
        clamp draw 0 belowOne < pressure (totalPending + 1) maxBacklog *
          excess (queuePending + 1) (maxBacklog / (max activeQueues 1 : Nat))) := by
  have hmany : 1 < max activeQueues 1 ↔ 1 < activeQueues := by omega
  simp only [decideFairWithFloor, decideFair, if_neg (not_le.mpr hpos), ← hmany]
  by_cases hpast : maxBacklog < (totalPending + 1 : Nat)
  · rw [if_pos hpast]
    have hnot : ¬(totalPending + 1 : Int) ≤ maxBacklog := by omega
    split
    · next hin =>
      simp only [hnot, hin]
      simp
    · next hout =>
      have : maxBacklog < (totalPending : Int) + 1 := by omega
      simp only [this, hout, hnot]
      simp
  · rw [if_neg hpast]
    have hwithin : (totalPending + 1 : Int) ≤ maxBacklog := by omega
    have hnot : ¬maxBacklog < (totalPending : Int) + 1 := by omega
    by_cases hone : max activeQueues 1 = 1
    · rw [if_pos hone]
      simp [hnot, hone]
    · rw [if_neg hone]
      have hgt : 1 < max activeQueues 1 := by omega
      simp only [hnot, hwithin, hgt, pressure, excess, false_and, false_or, true_and]
      split
      · next hdraw => simpa using hdraw.2
      · next hdraw =>
        have hlow : 0 ≤ clamp draw 0 belowOne := low_le_clamp
        simp only [Bool.true_eq_false, false_iff]
        intro hlt
        exact hdraw ⟨hlow.trans_lt hlt, hlt⟩

theorem share_nonneg (hpos : 0 < maxBacklog) :
    (0 : ℚ) ≤ maxBacklog / (max activeQueues 1 : Nat) := by
  have : (0 : ℚ) < maxBacklog := by exact_mod_cast hpos
  positivity

theorem refused_of_queue_le (hpos : 0 < maxBacklog) (hle : queuePending ≤ queuePending')
    (h : (decideFairWithFloor queuePending totalPending activeQueues maxBacklog ceilingFloor
      draw).allowed = false) :
    (decideFairWithFloor queuePending' totalPending activeQueues maxBacklog ceilingFloor
      draw).allowed = false := by
  rw [refused_iff hpos] at h ⊢
  rcases h with ⟨hpast, hout⟩ | ⟨hwithin, hmany, hdraw⟩
  · refine .inl ⟨hpast, fun hin => hout ⟨hin.1, le_trans ?_ hin.2.1, hin.2.2⟩⟩
    exact_mod_cast Nat.succ_le_succ hle
  · refine .inr ⟨hwithin, hmany, hdraw.trans_le ?_⟩
    exact mul_le_mul_of_nonneg_left (excess_mono (share_nonneg hpos) (Nat.succ_le_succ hle))
      pressure_nonneg

/-- A queue refused within the budget is over its share, so past the budget it is refused too. -/
theorem refused_of_total_le (hpos : 0 < maxBacklog) (hle : totalPending ≤ totalPending')
    (h : (decideFairWithFloor queuePending totalPending activeQueues maxBacklog ceilingFloor
      draw).allowed = false) :
    (decideFairWithFloor queuePending totalPending' activeQueues maxBacklog ceilingFloor
      draw).allowed = false := by
  rw [refused_iff hpos] at h ⊢
  rcases h with ⟨hpast, hout⟩ | ⟨hwithin, hmany, hdraw⟩
  · refine .inl ⟨by omega, fun hin => hout ⟨hin.1, hin.2.1, le_trans ?_ hin.2.2⟩⟩
    exact_mod_cast Nat.succ_le_succ hle
  · by_cases hpast : maxBacklog < totalPending' + 1
    · refine .inl ⟨hpast, fun hin => ?_⟩
      rw [excess_eq_zero (share_nonneg hpos) hin.2.1, mul_zero] at hdraw
      exact absurd hdraw (not_lt.mpr low_le_clamp)
    · refine .inr ⟨by omega, hmany, hdraw.trans_le ?_⟩
      exact mul_le_mul_of_nonneg_right (pressure_mono hpos (Nat.succ_le_succ hle)) excess_nonneg

theorem allowed_of_floor_le (hpos : 0 < maxBacklog) (hle : ceilingFloor ≤ ceilingFloor')
    (h : (decideFairWithFloor queuePending totalPending activeQueues maxBacklog ceilingFloor
      draw).allowed = true) :
    (decideFairWithFloor queuePending totalPending activeQueues maxBacklog ceilingFloor'
      draw).allowed = true := by
  rw [← Bool.not_eq_false, refused_iff hpos] at h ⊢
  rintro (⟨hpast, hout⟩ | hdraw)
  · refine h (.inl ⟨hpast, fun hin => hout ⟨hin.1, hin.2.1, hin.2.2.trans ?_⟩⟩)
    have hmax : max maxBacklog (ceilingFloor : Int) ≤ max maxBacklog ceilingFloor' :=
      max_le_max le_rfl (by exact_mod_cast hle)
    exact mul_le_mul_of_nonneg_left (by exact_mod_cast hmax) (by norm_num [fairCeiling])
  · exact h (.inr hdraw)

/-- A queue within its share is refused past the budget only, and beside another queue only past
the ceiling. -/
theorem past_ceiling_of_refused (hpos : 0 < maxBacklog)
    (hshare : ((queuePending + 1 : Nat) : ℚ) ≤ maxBacklog / (max activeQueues 1 : Nat))
    (h : (decideFairWithFloor queuePending totalPending activeQueues maxBacklog ceilingFloor
      draw).allowed = false) :
    maxBacklog < totalPending + 1 ∧
      (1 < activeQueues → fairCeiling * max maxBacklog ceilingFloor <
      (totalPending + 1 : Nat)) := by
  rw [refused_iff hpos] at h
  rcases h with ⟨hpast, hout⟩ | ⟨-, -, hdraw⟩
  · exact ⟨hpast, fun hmany => lt_of_not_ge fun hroom => hout ⟨hmany, hshare, hroom⟩⟩
  · rw [excess_eq_zero (share_nonneg hpos) hshare, mul_zero] at hdraw
    exact absurd hdraw (not_lt.mpr low_le_clamp)

/-- A refusal stays one for a larger queue and for a larger total, an admission stays one under a
higher floor, and a queue within its share is refused only past the budget and, beside another
queue, past the ceiling. -/
theorem fair_admission_monotone {B : Int} (hB : 0 < B) (n : Nat) (draw : ℚ) :
    (∀ p p' total floor, p ≤ p' → (decideFairWithFloor p total n B floor draw).allowed = false →
      (decideFairWithFloor p' total n B floor draw).allowed = false) ∧
    (∀ p total total' floor, total ≤ total' →
      (decideFairWithFloor p total n B floor draw).allowed = false →
      (decideFairWithFloor p total' n B floor draw).allowed = false) ∧
    (∀ p total floor floor', floor ≤ floor' →
      (decideFairWithFloor p total n B floor draw).allowed = true →
      (decideFairWithFloor p total n B floor' draw).allowed = true) ∧
    (∀ p total floor, ((p + 1 : Nat) : ℚ) ≤ B / (max n 1 : Nat) →
      (decideFairWithFloor p total n B floor draw).allowed = false →
      B < total + 1 ∧ (2 ≤ n → 5 / 4 * (max B floor : Int) < ((total + 1 : Nat) : ℚ))) := by
  refine ⟨?_, ?_, ?_, ?_⟩
  · intro p p' total floor hle h
    exact refused_of_queue_le hB hle h
  · intro p total total' floor hle h
    exact refused_of_total_le hB hle h
  · intro p total floor floor' hle h
    exact allowed_of_floor_le hB hle h
  · intro p total floor hshare h
    exact past_ceiling_of_refused hB hshare h

/-- With a budget of 10 and two queues a queue within its share is refused at a total of 13 and a
floor of 0, and admitted at a floor of 12. -/
theorem fair_admission_two_queues :
    (decideFairWithFloor 4 12 2 10 0 0).allowed = false ∧
      (decideFairWithFloor 4 12 2 10 12 0).allowed = true ∧
      (10 : Int) < 12 + 1 ∧ (decideFairWithFloor 4 12 2 10 20 0).allowed = true := by
  have hmono := fair_admission_monotone (B := 10) (by decide) 2 0
  have hrefused : (decideFairWithFloor 4 12 2 10 0 0).allowed = false := by decide +kernel
  have hallowed : (decideFairWithFloor 4 12 2 10 12 0).allowed = true := by decide +kernel
  refine ⟨hrefused, hallowed, ?_, hmono.2.2.1 4 12 12 20 (by decide) hallowed⟩
  exact (hmono.2.2.2 4 12 0 (by norm_num) hrefused).1

end Aquifer.Admission
