import Aquifer.Jobs
import Aquifer.Lib.KeySpace
import Aquifer.Lib.Page

/-! The drain journal of a Pebble store: numbered events, one at a time for each job. -/
namespace Aquifer

structure DrainEvent where
  sequence : Int
  hashKey : String
  jobID : String
  status : Status
  recordedAt : Int
deriving DecidableEq, Repr

/-- How many events `ListDrainEvents` returns at most. -/
def batchSize (limit : Int) : Nat := if limit ≤ 0 then 1000 else limit.toNat

theorem batchSize_pos (limit : Int) : 0 < batchSize limit := by
  unfold batchSize
  split_ifs <;> omega

/-- The keys `drain:seq:<n>`, `drain:job:<id>` and `meta:drain_sequence`. -/
structure Journal where
  events : KeySpace Int DrainEvent := {}
  jobs : KeySpace String Int := {}
  sequence : Option Int := none
deriving DecidableEq

namespace Journal

/-- The event `recordDrainEvent` writes next. -/
def nextEvent (j : Journal) (hashKey jobID : String) (status : Status) (now : Time) :
    DrainEvent where
  sequence := j.sequence.getD 0 + 1
  hashKey := hashKey
  jobID := jobID
  status := status
  recordedAt := unixMilli now

def append (j : Journal) (e : DrainEvent) : Journal where
  events := j.events.put e.sequence e
  jobs := j.jobs.put e.jobID e.sequence
  sequence := some e.sequence

/-- `recordDrainEvent` for a user job: nothing while an event of the job is not acknowledged. -/
def record (j : Journal) (hashKey jobID : String) (status : Status) (now : Time) : Journal :=
  if (j.jobs.get jobID).isSome then j else j.append (j.nextEvent hashKey jobID status now)

def list (j : Journal) (limit : Int) : List DrainEvent :=
  (j.events.entries.map Prod.snd).take (batchSize limit)

/-- `AcknowledgeDrainEventsThrough`: the iterator stops at the first later event. -/
def acknowledgeThrough (j : Journal) (sequence : Int) : Journal :=
  if sequence ≤ 0 then j
  else (((j.events.entries.map Prod.snd).takeWhile (·.sequence ≤ sequence)).foldl
    (fun j e => { j with events := j.events.del e.sequence, jobs := j.jobs.del e.jobID }) j)

/-! ### What the journal holds -/

def recorded (j : Journal) : List DrainEvent := j.events.entries.map Prod.snd

/-- Events are filed under their own numbers, which the counter has reached, and there is at most
one for each job, which is marked. -/
structure Sound (j : Journal) : Prop where
  keyed : ∀ x ∈ j.events.entries, x.2.sequence = x.1
  bounded : ∀ e ∈ j.recorded, 0 < e.sequence ∧ e.sequence ≤ j.sequence.getD 0
  counted : 0 ≤ j.sequence.getD 0
  marked : ∀ id, (j.jobs.get id).isSome = true ↔ ∃ e ∈ j.recorded, e.jobID = id
  distinct : (j.recorded.map DrainEvent.jobID).Nodup

theorem sound_empty : Sound {} where
  keyed := by simp
  bounded := by simp [recorded]
  counted := le_rfl
  marked := by simp [recorded, KeySpace.get]
  distinct := by simp [recorded]

namespace Sound

variable {j : Journal}

theorem increasing (h : j.Sound) : j.recorded.Pairwise fun a b => a.sequence < b.sequence := by
  refine List.pairwise_map.mpr (j.events.sorted.imp_of_mem fun {a b} ha hb hlt => ?_)
  rwa [h.keyed a ha, h.keyed b hb]

theorem recorded_append (h : j.Sound) {e : DrainEvent} (he : j.sequence.getD 0 < e.sequence) :
    (j.append e).recorded = j.recorded ++ [e] := by
  have hlast : ∀ n ∈ j.events.keys, n < e.sequence := by
    intro n hn
    obtain ⟨x, hx, rfl⟩ := List.mem_map.mp hn
    have hbound := (h.bounded x.2 (List.mem_map_of_mem hx)).2
    rw [h.keyed x hx] at hbound
    omega
  rw [recorded, append, KeySpace.entries_put_last hlast, List.map_append]
  rfl

theorem append (h : j.Sound) {e : DrainEvent} (he : j.sequence.getD 0 < e.sequence)
    (hnew : (j.jobs.get e.jobID).isSome = false) : (j.append e).Sound := by
  have hrec := h.recorded_append he
  have hpos := h.counted
  constructor
  · intro x hx
    rcases (KeySpace.mem_place j.events.sorted).mp hx with rfl | ⟨hx, -⟩
    · rfl
    · exact h.keyed x hx
  · intro x hx
    have hcounter : (j.append e).sequence.getD 0 = e.sequence := rfl
    rw [hcounter]
    rw [hrec, List.mem_append, List.mem_singleton] at hx
    rcases hx with hx | rfl
    · have := h.bounded x hx
      omega
    · omega
  · exact hpos.trans he.le
  · intro id
    have hget : ((j.append e).jobs.get id).isSome = true ↔
        id = e.jobID ∨ (j.jobs.get id).isSome = true := by
      rw [Journal.append, KeySpace.get_put]
      split_ifs with hid <;> simp [hid]
    rw [hget, h.marked, hrec]
    simp only [List.mem_append, List.mem_singleton, or_and_right, exists_or, exists_eq_left]
    rw [or_comm, eq_comm (a := id)]
  · rw [hrec, List.map_append, List.map_singleton, List.nodup_append]
    refine ⟨h.distinct, List.nodup_singleton _, fun id hid id' hid' heq => ?_⟩
    obtain ⟨x, hx, rfl⟩ := List.mem_map.mp hid
    have hmarked := (h.marked e.jobID).mpr ⟨x, hx, heq.trans (List.mem_singleton.mp hid')⟩
    exact absurd (hnew.symm.trans hmarked) (by simp)

/-- An acknowledgement deletes the events up to its number with their jobs' marks. -/
theorem acknowledgeThrough_eq (h : j.Sound) (n : Int) :
    j.acknowledgeThrough n = { j with
      events := j.events.delAll ((j.recorded.filter (·.sequence ≤ n)).map DrainEvent.sequence)
      jobs := j.jobs.delAll ((j.recorded.filter (·.sequence ≤ n)).map DrainEvent.jobID) } := by
  have hfold : ∀ (es : List DrainEvent) (j : Journal), es.foldl (fun j e => { j with
      events := j.events.del e.sequence, jobs := j.jobs.del e.jobID }) j = { j with
        events := j.events.delAll (es.map DrainEvent.sequence)
        jobs := j.jobs.delAll (es.map DrainEvent.jobID) } := by
    intro es
    induction es with
    | nil => exact fun _ => rfl
    | cons e es ih => exact fun j => ih _
  unfold acknowledgeThrough
  split_ifs with hn
  · -- every number is positive
    have hnone : j.recorded.filter (·.sequence ≤ n) = [] := by
      refine List.filter_eq_nil_iff.mpr fun e he hle => ?_
      have := (h.bounded e he).1
      have := of_decide_eq_true hle
      omega
    rw [hnone]
    rfl
  · rw [hfold, ← Page.takeWhile_le h.increasing]
    rfl

theorem recorded_acknowledge (h : j.Sound) (n : Int) :
    (j.acknowledgeThrough n).recorded = j.recorded.filter fun e => n < e.sequence := by
  have hevents : (j.acknowledgeThrough n).events = j.events.delAll
      ((j.recorded.filter (·.sequence ≤ n)).map DrainEvent.sequence) := by
    rw [h.acknowledgeThrough_eq]
  have hfilter : j.recorded.filter (fun e => n < e.sequence) =
      (j.events.entries.filter fun x => n < x.2.sequence).map Prod.snd := List.filter_map
  rw [hfilter, recorded, hevents, KeySpace.entries_delAll]
  refine congrArg (List.map Prod.snd) (List.filter_congr fun x hx => ?_)
  have hmem : x.1 ∈ (j.recorded.filter (·.sequence ≤ n)).map DrainEvent.sequence ↔
      x.2.sequence ≤ n := by
    rw [← h.keyed x hx, List.mem_map]
    constructor
    · rintro ⟨e, he, heq⟩
      exact heq ▸ of_decide_eq_true (List.mem_filter.mp he).2
    · exact fun hle => ⟨x.2, List.mem_filter.mpr ⟨List.mem_map_of_mem hx, by simpa using hle⟩, rfl⟩
  simp only [hmem, Int.not_le]

theorem acknowledge (h : j.Sound) (n : Int) : (j.acknowledgeThrough n).Sound := by
  have hrec := h.recorded_acknowledge n
  have hseq : (j.acknowledgeThrough n).sequence = j.sequence := by rw [h.acknowledgeThrough_eq]
  have hsub : ∀ e ∈ (j.acknowledgeThrough n).recorded, e ∈ j.recorded := fun e he =>
    List.mem_of_mem_filter (hrec ▸ he)
  constructor
  · intro x hx
    rw [h.acknowledgeThrough_eq, KeySpace.entries_delAll] at hx
    exact h.keyed x (List.mem_of_mem_filter hx)
  · exact fun e he => hseq ▸ h.bounded e (hsub e he)
  · exact hseq ▸ h.counted
  · intro id
    have hgone : id ∈ (j.recorded.filter (·.sequence ≤ n)).map DrainEvent.jobID ↔
        ∃ e ∈ j.recorded, e.sequence ≤ n ∧ e.jobID = id := by
      simp [and_assoc]
    have hjobs : (j.acknowledgeThrough n).jobs =
        j.jobs.delAll ((j.recorded.filter (·.sequence ≤ n)).map DrainEvent.jobID) := by
      rw [h.acknowledgeThrough_eq]
    rw [hjobs, KeySpace.get_isSome_iff, KeySpace.mem_keys_delAll, ← KeySpace.get_isSome_iff,
      h.marked, hgone, hrec]
    constructor
    · rintro ⟨⟨e, he, rfl⟩, hnot⟩
      refine ⟨e, List.mem_filter.mpr ⟨he, decide_eq_true (Int.lt_of_not_ge fun hle => ?_)⟩, rfl⟩
      exact hnot ⟨e, he, hle, rfl⟩
    · rintro ⟨e, he, rfl⟩
      obtain ⟨he, hlt⟩ := List.mem_filter.mp he
      refine ⟨⟨e, he, rfl⟩, fun ⟨e', he', hle, heq⟩ => ?_⟩
      -- the job has one event
      obtain rfl := List.inj_on_of_nodup_map h.distinct he' he heq
      exact absurd hle (Int.not_le.mpr (of_decide_eq_true hlt))
  · exact hrec ▸ h.distinct.sublist (List.filter_sublist.map _)

end Sound

end Journal

end Aquifer
