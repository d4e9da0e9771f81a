import Mathlib.Data.Prod.Lex
import Mathlib.Data.List.Nodup
import Aquifer.Lib.Trace

/-! A session's transcript in Valkey, trimmed at its old end, and the client session that reads it
from a cursor of its own. -/
namespace Aquifer.Websocket

/-- A stream id: milliseconds and sequence, compared in this order by `compareRedisStreamIDs`. -/
abbrev StreamID := Nat ×ₗ Nat

/-- `0-0`, the cursor of a client that gives none. -/
def StreamID.zero : StreamID := toLex (0, 0)

structure Entry where
  id : StreamID
  backend : Bool
deriving DecidableEq

/-- A client's session: the cursor it was accepted with, its own, the entries it has read and not
yet handled, and the backend entries written to the client. -/
structure Session where
  after : StreamID
  cursor : StreamID
  batch : List Entry := []
  delivered : List Entry := []
  ended : Bool := false
deriving DecidableEq

/-- Every entry ever appended, how many of the oldest ones are gone, and the session. -/
structure Transcript where
  log : List Entry := []
  removed : Nat := 0
  session : Option Session := none

inductive TranscriptEvent
  /-- `Append`, whose `XADD` leaves this many of the oldest entries removed. -/
  | append (e : Entry) (removed : Nat)
  /-- The transcript's TTL has passed, or Valkey has evicted it. -/
  | expire
  | connect (after : StreamID)
  | read (count : Nat)
  | write (ok : Bool)
  | leave

namespace Transcript

variable {maxEvents : Nat} {s t : Transcript} {e : TranscriptEvent} {σ : Session}

def retained (s : Transcript) : List Entry := s.log.drop s.removed

/-- `CheckCursor`, as it is made before the session begins. -/
def checkCursor (s : Transcript) (after : StreamID) : Bool :=
  after = StreamID.zero ||
    match s.retained with
    | [] => false
    | oldest :: _ => oldest.id ≤ after

/-- The entries of a transcript after a cursor. `XREAD` returns the first ones that are left. -/
def readAfter (s : Transcript) (after : StreamID) (count : Nat) : List Entry :=
  (s.retained.filter fun e => after < e.id).take count

/-- One step of `deliverEvents`: the cursor moves past every entry, and backend entries are
written. -/
def Session.deliver (σ : Session) (e : Entry) (rest : List Entry) : Session :=
  { σ with
    cursor := e.id
    batch := rest
    delivered := if e.backend then σ.delivered ++ [e] else σ.delivered }

def step (maxEvents : Nat) (s : Transcript) : TranscriptEvent → Option Transcript
  -- ids grow; `MAXLEN ~` removes whole nodes as long as `maxEvents` entries are left
  | .append e removed =>
    if (∀ old ∈ s.log, old.id < e.id) ∧ s.removed ≤ removed ∧
        (removed = s.removed ∨ removed + maxEvents ≤ s.log.length + 1) then
      some { s with log := s.log ++ [e], removed := removed }
    else none
  | .expire => some { s with removed := s.log.length }
  | .connect after =>
    if s.session.isNone then
      some { s with session := if s.checkCursor after then some ⟨after, after, [], [], false⟩
        else none }
    else none
  | .read count =>
    match s.session with
    | some σ =>
      if σ.ended = false ∧ σ.batch = [] then
        some { s with session := some { σ with batch := s.readAfter σ.cursor count } }
      else none
    | none => none
  -- a write that fails ends the session, which does not read its cursor again
  | .write ok =>
    match s.session with
    | some σ =>
      match σ.batch with
      | e :: rest =>
        if σ.ended then none
        else
          some { s with
            session := some (if ok then Session.deliver σ e rest else { σ with ended := true }) }
      | [] => none
    | none => none
  | .leave => s.session.map fun σ => { s with session := some { σ with ended := true } }

/-- Whenever the session reads, every backend entry after its cursor is still there. -/
def Orderly (s : Transcript) : TranscriptEvent → Prop
  | .read _ => ∀ σ ∈ s.session, ∀ e ∈ s.log.take s.removed, e.backend = true → ¬ σ.cursor < e.id
  | _ => True

instance (s : Transcript) : (e : TranscriptEvent) → Decidable (s.Orderly e)
  | .read _ => inferInstanceAs (Decidable (∀ σ ∈ s.session, ∀ e ∈ s.log.take s.removed, _))
  | .append _ _ | .expire | .connect _ | .write _ | .leave => isTrue trivial

/-- Entries in stream order. -/
abbrev InOrder (l : List Entry) : Prop := l.Pairwise fun a b => a.id < b.id

theorem mem_take_of_le {l : List Entry} {n : Nat} {a b : Entry} (hl : InOrder l) (hb : b ∈ l.take n)
    (ha : a ∈ l) (hle : a.id ≤ b.id) : a ∈ l.take n := by
  rw [← List.take_append_drop n l] at hl ha
  rcases List.mem_append.mp ha with h | h
  · exact h
  · exact absurd ((List.pairwise_append.mp hl).2.2 b hb a h) hle.not_gt

/-- What a session has delivered and is about to handle, against the whole log. -/
structure Follows (log : List Entry) (σ : Session) : Prop where
  after_le : σ.after ≤ σ.cursor
  at_entry : σ.cursor = σ.after ∨ ∃ e ∈ log, e.id = σ.cursor
  delivered_inOrder : InOrder σ.delivered
  mem_delivered : ∀ e, e ∈ σ.delivered ↔
    e ∈ log ∧ e.backend = true ∧ σ.after < e.id ∧ e.id ≤ σ.cursor
  batch_inOrder : InOrder σ.batch
  mem_batch : ∀ e ∈ σ.batch, e ∈ log ∧ σ.cursor < e.id
  batch_full : ∀ b ∈ σ.batch, ∀ e ∈ log, e.backend = true → σ.cursor < e.id → e.id ≤ b.id →
    e ∈ σ.batch

/-- The invariant of orderly runs. -/
structure Gapless (s : Transcript) : Prop where
  inOrder : InOrder s.log
  follows : ∀ σ ∈ s.session, Follows s.log σ

section Follows

variable {log : List Entry} {new head : Entry} {rest : List Entry}

theorem Follows.append (h : Follows log σ) (hnew : ∀ old ∈ log, old.id < new.id) :
    Follows (log ++ [new]) σ where
  __ := h
  at_entry := h.at_entry.imp_right fun ⟨e, he, hid⟩ => ⟨e, List.mem_append_left _ he, hid⟩
  mem_batch e he := ⟨List.mem_append_left _ (h.mem_batch e he).1, (h.mem_batch e he).2⟩
  mem_delivered := by
    intro e
    rw [h.mem_delivered, List.mem_append, List.mem_singleton]
    constructor
    · rintro ⟨hlog, hrest⟩
      exact ⟨.inl hlog, hrest⟩
    · rintro ⟨hlog | rfl, hrest⟩
      · exact ⟨hlog, hrest⟩
      -- the new entry is past the cursor, or there is nothing between the cursor and the start
      · rcases h.at_entry with heq | ⟨old, hold, heq⟩
        · exact absurd (hrest.2.1.trans_le hrest.2.2) (by simp [heq])
        · exact absurd hrest.2.2 (heq ▸ hnew old hold).not_ge
  batch_full := by
    intro b hb e he hback hcur hle
    rcases List.mem_append.mp he with hlog | hlast
    · exact h.batch_full b hb e hlog hback hcur hle
    · obtain rfl := List.mem_singleton.mp hlast
      exact absurd hle (hnew b (h.mem_batch b hb).1).not_ge

/-- Handling the first entry of a batch leaves nothing out before it. -/
theorem Follows.deliver (h : Follows log σ) (hbatch : σ.batch = head :: rest) :
    Follows log (Session.deliver σ head rest) := by
  have hord := List.pairwise_cons.mp (hbatch ▸ h.batch_inOrder)
  have hhead := h.mem_batch head (by simp [hbatch])
  -- between the cursor and the head there is no backend entry
  have hnext {e : Entry} (he : e ∈ log) (hback : e.backend = true) (hcur : σ.cursor < e.id)
      (hle : e.id ≤ head.id) : e = head := by
    have hmem := h.batch_full head (by simp [hbatch]) e he hback hcur hle
    rw [hbatch, List.mem_cons] at hmem
    exact hmem.resolve_right fun hr => (hord.1 e hr).not_ge hle
  have hbefore {e : Entry} (he : e ∈ σ.delivered) : e.id < head.id :=
    ((h.mem_delivered e).mp he).2.2.2.trans_lt hhead.2
  refine ⟨h.after_le.trans hhead.2.le, .inr ⟨head, hhead.1, rfl⟩, ?_, ?_, hord.2, ?_, ?_⟩
  · simp only [Session.deliver]
    split
    · refine List.pairwise_append.mpr ⟨h.delivered_inOrder, by simp, fun a ha b hb => ?_⟩
      rw [List.mem_singleton.mp hb]
      exact hbefore ha
    · exact h.delivered_inOrder
  · intro e
    have hmem : e ∈ (Session.deliver σ head rest).delivered ↔
        e ∈ σ.delivered ∨ head.backend = true ∧ e = head := by
      simp only [Session.deliver]
      split <;> simp [*]
    rw [hmem]
    constructor
    · rintro (he | ⟨hback, rfl⟩)
      · obtain ⟨hlog, hback, hafter, -⟩ := (h.mem_delivered e).mp he
        exact ⟨hlog, hback, hafter, (hbefore he).le⟩
      · exact ⟨hhead.1, hback, h.after_le.trans_lt hhead.2, le_rfl⟩
    · rintro ⟨hlog, hback, hafter, hle⟩
      rcases le_or_gt e.id σ.cursor with hcur | hcur
      · exact .inl ((h.mem_delivered e).mpr ⟨hlog, hback, hafter, hcur⟩)
      · obtain rfl := hnext hlog hback hcur hle
        exact .inr ⟨hback, rfl⟩
  · intro e he
    exact ⟨(h.mem_batch e (by simp [hbatch, show e ∈ rest from he])).1, hord.1 e he⟩
  · intro b hb e he hback hcur hle
    have hmem := h.batch_full b (by simp [hbatch, show b ∈ rest from hb]) e he hback
      (hhead.2.trans hcur) hle
    rw [hbatch, List.mem_cons] at hmem
    refine hmem.resolve_left ?_
    rintro rfl
    exact lt_irrefl _ hcur

/-- A read that finds every backend entry after the cursor skips none of them. -/
theorem Follows.read (h : Follows s.log σ) (hord : InOrder s.log) (count : Nat)
    (hkept : ∀ e ∈ s.log.take s.removed, e.backend = true → ¬ σ.cursor < e.id) :
    Follows s.log { σ with batch := s.readAfter σ.cursor count } := by
  have hsub : List.Sublist (s.retained.filter fun e => σ.cursor < e.id) s.log :=
    List.filter_sublist.trans (List.drop_sublist _ _)
  have hmem {e : Entry} (he : e ∈ s.readAfter σ.cursor count) : e ∈ s.log ∧ σ.cursor < e.id := by
    have hf := List.mem_of_mem_take he
    exact ⟨hsub.subset hf, by simpa using (List.mem_filter.mp hf).2⟩
  refine { h with
    batch_inOrder := (hord.sublist hsub).sublist (List.take_sublist _ _)
    mem_batch := fun e => hmem
    batch_full := ?_ }
  intro b hb e he hback hcur hle
  have hin : e ∈ s.retained := by
    rw [← List.take_append_drop s.removed s.log] at he
    exact (List.mem_append.mp he).resolve_left fun hgone => hkept e hgone hback hcur
  exact mem_take_of_le (hord.sublist hsub) hb (List.mem_filter.mpr ⟨hin, by simpa using hcur⟩) hle

end Follows

theorem gapless_step (h : Gapless s) (hok : s.Orderly e) (hstep : step maxEvents s e = some t) :
    Gapless t := by
  cases e with
  | append new removed =>
    obtain ⟨⟨hnew, -⟩, ⟨⟩⟩ := Option.ite_none_right_eq_some.mp hstep
    refine ⟨List.pairwise_append.mpr ⟨h.inOrder, by simp, fun a ha b hb => ?_⟩,
      fun σ hσ => (h.follows σ hσ).append hnew⟩
    rw [List.mem_singleton.mp hb]
    exact hnew a ha
  | expire =>
    cases hstep
    exact { h with }
  | connect after =>
    obtain ⟨-, ⟨⟩⟩ := Option.ite_none_right_eq_some.mp hstep
    refine ⟨h.inOrder, fun σ hσ => ?_⟩
    obtain ⟨-, ⟨⟩⟩ := Option.ite_none_right_eq_some.mp (Option.mem_def.mp hσ)
    refine ⟨le_rfl, .inl rfl, List.Pairwise.nil, ?_, List.Pairwise.nil, by simp, by simp⟩
    simp only [List.not_mem_nil, false_iff]
    rintro e ⟨-, -, hlt, hle⟩
    exact absurd (hlt.trans_le hle) (lt_irrefl _)
  | read count =>
    simp only [step] at hstep
    split at hstep
    · next σ hσ =>
      obtain ⟨-, ⟨⟩⟩ := Option.ite_none_right_eq_some.mp hstep
      refine ⟨h.inOrder, fun σ' hσ' => ?_⟩
      obtain rfl := Option.some.inj hσ'
      exact (h.follows σ hσ).read h.inOrder count (hok σ hσ)
    · cases hstep
  | write ok =>
    simp only [step] at hstep
    split at hstep
    · next σ hσ =>
      split at hstep
      · next head rest hbatch =>
        obtain ⟨-, ⟨⟩⟩ := Option.ite_none_left_eq_some.mp hstep
        refine ⟨h.inOrder, fun σ' hσ' => ?_⟩
        obtain rfl := Option.some.inj hσ'
        cases ok with
        | true => exact (h.follows σ hσ).deliver hbatch
        | false => exact { h.follows σ hσ with }
      · cases hstep
    · cases hstep
  | leave =>
    obtain ⟨σ, hσ, ⟨⟩⟩ := Option.map_eq_some_iff.mp hstep
    refine ⟨h.inOrder, fun σ' hσ' => ?_⟩
    obtain rfl := Option.some.inj hσ'
    exact { h.follows σ hσ with }

theorem InOrder.nodup {l : List Entry} (h : InOrder l) : l.Nodup :=
  h.imp fun hlt heq => absurd hlt (by simp [heq])

theorem InOrder.eq_of_mem_iff {l l' : List Entry} (h : InOrder l) (h' : InOrder l')
    (hmem : ∀ e, e ∈ l ↔ e ∈ l') : l = l' := by
  refine ((List.perm_ext_iff_of_nodup h.nodup h'.nodup).mpr hmem).eq_of_pairwise ?_ h h'
  intro a b _ _ hab hba
  exact absurd (hab.trans hba) (lt_irrefl _)

theorem InOrder.le_last {l : List Entry} {last e : Entry} (h : InOrder l)
    (hlast : l.getLast? = some last) (he : e ∈ l) : e.id ≤ last.id := by
  obtain ⟨front, rfl⟩ := List.getLast?_eq_some_iff.mp hlast
  rcases List.mem_append.mp he with hf | hl
  · exact ((List.pairwise_append.mp h).2.2 e hf last (by simp)).le
  · rw [List.mem_singleton.mp hl]

/-- In a run where no backend entry is removed before the session has read it, what the session has
delivered is every backend entry after the cursor it was accepted with, up to the last one it
delivered, in stream order. -/
theorem no_event_skipped (maxEvents : Nat) (es : List TranscriptEvent) (last : Entry)
    (hok : Trace.Along (step maxEvents) Orderly {} es)
    (hrun : Trace.exec (step maxEvents) {} es = some s) (hσ : s.session = some σ)
    (hlast : σ.delivered.getLast? = some last) :
    σ.delivered = s.log.filter fun e => e.backend && σ.after < e.id && e.id ≤ last.id := by
  have hstart : Gapless {} := ⟨List.Pairwise.nil, by simp⟩
  have hgap := Trace.exec_invariant gapless_step hstart hok hrun
  have hf := hgap.follows σ hσ
  refine hf.delivered_inOrder.eq_of_mem_iff (hgap.inOrder.sublist List.filter_sublist) fun e => ?_
  have hlast_mem := (hf.mem_delivered last).mp (List.mem_of_getLast? hlast)
  simp only [List.mem_filter, Bool.and_eq_true, decide_eq_true_iff]
  constructor
  · intro he
    obtain ⟨hlog, hback, hafter, -⟩ := (hf.mem_delivered e).mp he
    exact ⟨hlog, ⟨hback, hafter⟩, hf.delivered_inOrder.le_last hlast he⟩
  · rintro ⟨hlog, ⟨hback, hafter⟩, hle⟩
    exact (hf.mem_delivered e).mpr ⟨hlog, hback, hafter, hle.trans hlast_mem.2.2.2⟩

def backendAt (ms : Nat) : Entry := ⟨toLex (ms, 0), true⟩

/-- A session that keeps up while the transcript is trimmed to two entries. -/
def keepsUp : List TranscriptEvent :=
  [.append (backendAt 1) 0, .connect (toLex (1, 0)), .append (backendAt 2) 0, .read 10, .write true,
    .append ⟨toLex (3, 0), false⟩ 1, .append (backendAt 4) 2, .read 10, .write true, .write true]

theorem kept_up_in_order :
    ∃ s σ, Trace.exec (step 2) {} keepsUp = some s ∧ s.session = some σ ∧ s.removed = 2 ∧
      σ.delivered = s.log.filter fun e =>
        e.backend && σ.after < e.id && e.id ≤ (backendAt 4).id := by
  have hok : Trace.Along (step 2) Orderly {} keepsUp := by decide +kernel
  obtain ⟨s, hrun, hremoved, σ, hσ, hlast⟩ : ∃ s, Trace.exec (step 2) {} keepsUp = some s ∧
      s.removed = 2 ∧ ∃ σ, s.session = some σ ∧ σ.delivered.getLast? = some (backendAt 4) := by
    decide +kernel
  exact ⟨s, σ, hrun, hσ, hremoved, no_event_skipped 2 keepsUp (backendAt 4) hok hrun hσ hlast⟩

/-- What the session of a run has delivered, in milliseconds, and whether it has ended. -/
def seen (es : List TranscriptEvent) : Option (List Nat × Bool) := do
  let s ← Trace.exec (step 2) {} es
  let σ ← s.session
  return (σ.delivered.map fun e => (ofLex e.id).1, σ.ended)

/-- A session whose write of entry 2 takes long goes on with entry 4 once entry 3 is trimmed; one
that is about to read loses entry 2 with the whole transcript; and one without a cursor never learns
that entry 1 is gone. All three are still connected. -/
theorem event_skipped_silently :
    seen [.append (backendAt 1) 0, .connect (toLex (1, 0)), .append (backendAt 2) 0,
        .append (backendAt 3) 0, .read 1, .append (backendAt 4) 2, .append (backendAt 5) 3,
        .write true, .read 2, .write true, .write true] = some ([2, 4, 5], false) ∧
    seen [.append (backendAt 1) 0, .connect (toLex (1, 0)), .append (backendAt 2) 0, .expire,
        .append (backendAt 3) 2, .read 2, .write true] = some ([3], false) ∧
    seen [.append (backendAt 1) 0, .append (backendAt 2) 0, .append (backendAt 3) 1,
        .connect StreamID.zero, .read 2, .write true, .write true] = some ([2, 3], false) := by
  decide +kernel

end Transcript

end Aquifer.Websocket
