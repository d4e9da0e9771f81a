import Mathlib.Logic.Function.Basic
import Mathlib.Order.Basic
import Aquifer.Lib.Assoc
import Aquifer.Lib.Trace

/-! The lock per idempotency key. A call that finds its key taken waits for the channel of the call
that has it and then looks again; a release takes the key out under the mutex and then closes the
channel. -/
namespace Aquifer

/-- Where a call of `claim` is: about to look the key up; waiting for the channel of another call;
returned, with the key taken; in its release, the key given back and the channel still open; through
with it. -/
inductive KeyClaims.Caller
  | trying (key : String)
  | waiting (key : String) (done : Nat)
  | holding (key : String)
  | releasing (key : String)
  | released (key : String)
deriving DecidableEq

/-- Calls are numbered, and the channel a call makes has the call's number. -/
structure KeyClaims where
  held : Assoc String Nat := ∅
  caller : Nat → KeyClaims.Caller := fun _ => .trying ""
  callers : Nat := 0

namespace KeyClaims

inductive Event
  | claim (key : String)
  | look (c : Nat)
  | wake (c : Nat)
  | release (c : Nat)
  | closeDone (c : Nat)
deriving DecidableEq

def setCaller (s : KeyClaims) (c : Nat) (x : Caller) : KeyClaims :=
  { s with caller := Function.update s.caller c x }

def step (s : KeyClaims) : Event → Option KeyClaims
  | .claim key => some { s.setCaller s.callers (.trying key) with callers := s.callers + 1 }
  | .look c =>
    match s.caller c with
    | .trying key =>
      if c < s.callers then
        match s.held.lookup key with
        | some done => some (s.setCaller c (.waiting key done))
        | none => some { s.setCaller c (.holding key) with held := s.held.insert key c }
      else none
    | _ => none
  | .wake c =>
    match s.caller c with
    | .waiting key done =>
      if s.caller done = .released key then some (s.setCaller c (.trying key)) else none
    | _ => none
  -- the release runs once: a later call of it does nothing
  | .release c =>
    match s.caller c with
    | .holding key =>
      if c < s.callers then some { s.setCaller c (.releasing key) with held := s.held.erase key }
      else none
    | .released _ => some s
    | _ => none
  | .closeDone c =>
    match s.caller c with
    | .releasing key => some (s.setCaller c (.released key))
    | _ => none

variable {s t : KeyClaims} {e : Event} {c d : Nat} {key : String}

/-- The call has taken the key at some time. -/
def Caller.took (key : String) (x : Caller) : Prop :=
  x = .holding key ∨ x = .releasing key ∨ x = .released key

/-- The map has the calls that hold a key, and a call waits for one that has taken its key. -/
structure Sound (s : KeyClaims) : Prop where
  entry : ∀ {key c}, s.held.lookup key = some c ↔ c < s.callers ∧ s.caller c = .holding key
  waiting : ∀ {c key done}, c < s.callers → s.caller c = .waiting key done →
    done < s.callers ∧ (s.caller done).took key

theorem sound_init : Sound {} where
  entry := by simp
  waiting h := nomatch h

@[simp]
theorem caller_setCaller {x : Caller} :
    (s.setCaller c x).caller d = if d = c then x else s.caller d :=
  Function.update_apply ..

/-- What a step does: a call comes in, moves without taking or giving back a key, takes one that is
free or gives its key back; or nothing happens. -/
inductive Stepped (s : KeyClaims) : KeyClaims → Prop
  | comes {key : String} :
      Stepped s { s.setCaller s.callers (.trying key) with callers := s.callers + 1 }
  | waits {c done : Nat} {key : String} (hc : c < s.callers) (hcaller : s.caller c = .trying key)
      (hheld : s.held.lookup key = some done) : Stepped s (s.setCaller c (.waiting key done))
  | takes {c : Nat} {key : String} (hc : c < s.callers) (hcaller : s.caller c = .trying key)
      (hfree : s.held.lookup key = none) :
      Stepped s { s.setCaller c (.holding key) with held := s.held.insert key c }
  | wakes {c done : Nat} {key : String} (hcaller : s.caller c = .waiting key done) :
      Stepped s (s.setCaller c (.trying key))
  | gives {c : Nat} {key : String} (hc : c < s.callers) (hcaller : s.caller c = .holding key) :
      Stepped s { s.setCaller c (.releasing key) with held := s.held.erase key }
  | closes {c : Nat} {key : String} (hcaller : s.caller c = .releasing key) :
      Stepped s (s.setCaller c (.released key))
  | rests : Stepped s s

theorem stepped_of_step (hstep : s.step e = some t) : Stepped s t := by
  cases e with
  | claim key =>
    cases hstep
    exact .comes
  | look c =>
    simp only [step] at hstep
    split at hstep
    · next hcaller =>
      obtain ⟨hc, hnext⟩ := Option.ite_none_right_eq_some.mp hstep
      split at hnext
      · next hheld =>
        cases hnext
        exact .waits hc hcaller hheld
      · next hfree =>
        cases hnext
        exact .takes hc hcaller hfree
    · cases hstep
  | wake c =>
    simp only [step] at hstep
    split at hstep
    · next hcaller =>
      obtain ⟨-, ⟨⟩⟩ := Option.ite_none_right_eq_some.mp hstep
      exact .wakes hcaller
    · cases hstep
  | release c =>
    simp only [step] at hstep
    split at hstep
    · next hcaller =>
      obtain ⟨hc, ⟨⟩⟩ := Option.ite_none_right_eq_some.mp hstep
      exact .gives hc hcaller
    · cases hstep
      exact .rests
    · cases hstep
  | closeDone c =>
    simp only [step] at hstep
    split at hstep
    · next hcaller =>
      cases hstep
      exact .closes hcaller
    · cases hstep

theorem took_step (hstep : Stepped s t) (hd : d < s.callers) (htook : (s.caller d).took key) :
    (t.caller d).took key := by
  cases hstep with
  | comes => simpa [hd.ne] using htook
  | rests => exact htook
  | _ =>
    simp only [caller_setCaller]
    split
    · next hdc =>
      subst hdc
      simp_all [Caller.took]
    · exact htook

theorem waiting_of_step (hstep : Stepped s t) (hc : c < t.callers)
    (hcaller : t.caller c = .waiting key d) :
    c < s.callers ∧ s.caller c = .waiting key d ∨ s.held.lookup key = some d := by
  cases hstep with
  | comes =>
    simp only [caller_setCaller] at hcaller
    split at hcaller
    · cases hcaller
    · next hne => exact .inl ⟨lt_of_le_of_ne (Nat.le_of_lt_succ hc) hne, hcaller⟩
  | rests => exact .inl ⟨hc, hcaller⟩
  | waits _ _ hheld =>
    simp only [caller_setCaller] at hcaller
    split at hcaller
    · cases hcaller
      exact .inr hheld
    · exact .inl ⟨hc, hcaller⟩
  | takes | wakes | gives | closes =>
    simp only [caller_setCaller] at hcaller
    split at hcaller
    · cases hcaller
    · exact .inl ⟨hc, hcaller⟩

/-- A move that neither takes a key nor gives one back leaves the holders alone. -/
theorem Sound.entry_setCaller {x : Caller} {k : String} (h : Sound s) (hx : x ≠ .holding k)
    (hcaller : s.caller c ≠ .holding k) :
    s.held.lookup k = some d ↔ d < s.callers ∧ (s.setCaller c x).caller d = .holding k := by
  rw [h.entry, caller_setCaller]
  split
  · next hdc => simp [hdc, hx, hcaller]
  · rfl

theorem entry_step {k : String} (h : Sound s) (hstep : Stepped s t) :
    t.held.lookup k = some d ↔ d < t.callers ∧ t.caller d = .holding k := by
  cases hstep with
  | comes =>
    show s.held.lookup k = some d ↔ d < s.callers + 1 ∧ _
    rw [h.entry]
    obtain hd | rfl | hd := Nat.lt_trichotomy d s.callers
    · simp [hd, hd.ne, hd.trans (Nat.lt_succ_self _)]
    · simp
    · exact iff_of_false (fun hin => hd.not_gt hin.1)
        (fun hin => hd.not_ge (Nat.le_of_lt_succ hin.1))
  | waits _ hcaller => exact h.entry_setCaller (by simp) (by simp [hcaller])
  | wakes hcaller => exact h.entry_setCaller (by simp) (by simp [hcaller])
  | closes hcaller => exact h.entry_setCaller (by simp) (by simp [hcaller])
  | @takes c key hc hcaller hfree =>
    show (s.held.insert key c).lookup k = some d ↔ d < s.callers ∧ (s.setCaller c _).caller d = _
    rw [Assoc.lookup_insert_ite]
    split
    · -- nobody held the key before
      next hk =>
      subst hk
      have hnone : d < s.callers → s.caller d ≠ .holding k := fun hd hold => by
        rw [h.entry.mpr ⟨hd, hold⟩] at hfree
        cases hfree
      by_cases hdc : d = c
      · simp [hdc, hc]
      · simpa [hdc, Ne.symm hdc] using hnone
    · next hk => exact h.entry_setCaller (by simpa using Ne.symm hk) (by simp [hcaller])
  | @gives c key hc hcaller =>
    show (s.held.erase key).lookup k = some d ↔ d < s.callers ∧ (s.setCaller c _).caller d = _
    rw [Assoc.lookup_erase_ite]
    split
    · next hk =>
      subst hk
      have hone : d < s.callers → s.caller d = .holding k → d = c := fun hd hold =>
        Option.some.inj ((h.entry.mpr ⟨hd, hold⟩).symm.trans (h.entry.mpr ⟨hc, hcaller⟩))
      by_cases hdc : d = c
      · simp [hdc]
      · simpa [hdc] using fun hd hold => hdc (hone hd hold)
    · next hk => exact h.entry_setCaller (by simp) (by simpa [hcaller] using Ne.symm hk)
  | rests => exact h.entry

theorem callers_step (hstep : Stepped s t) : s.callers ≤ t.callers := by
  cases hstep with
  | comes => exact Nat.le_succ _
  | _ => exact Nat.le_refl _

theorem sound_step (h : Sound s) (hstep : Stepped s t) : Sound t where
  entry := entry_step h hstep
  waiting hc hcaller := by
    obtain ⟨hc, hold⟩ | hheld := waiting_of_step hstep hc hcaller
    · obtain ⟨hdone, htook⟩ := h.waiting hc hold
      exact ⟨hdone.trans_le (callers_step hstep), took_step hstep hdone htook⟩
    · obtain ⟨hdone, hholding⟩ := h.entry.mp hheld
      exact ⟨hdone.trans_le (callers_step hstep), took_step hstep hdone (.inl hholding)⟩

theorem sound_of_run {events : List Event} (hrun : Trace.exec step {} events = some s) : Sound s :=
  Trace.exec_always (I := Sound) (fun h ht => sound_step h (stepped_of_step ht)) sound_init hrun

/-- At most one call holds a key, and the map has the keys that are held. A step leaves those keys
alone, adds one that was free or takes out one that was held, as the claims of the requests do. A
call that waits does so for one that has not closed its channel yet, or it can go on. -/
theorem keys_held_once {events : List Event} (hrun : Trace.exec step {} events = some s) :
    (∀ c d key, c < s.callers → d < s.callers → s.caller c = .holding key →
      s.caller d = .holding key → c = d) ∧
    (∀ key, key ∈ s.held.keys ↔ ∃ c < s.callers, s.caller c = .holding key) ∧
    (∀ e t, s.step e = some t → t.held.keys = s.held.keys ∨
      (∃ key ∉ s.held.keys, t.held.keys = key :: s.held.keys) ∨
      ∃ key ∈ s.held.keys, t.held.keys = s.held.keys.erase key) ∧
    ∀ c key done, c < s.callers → s.caller c = .waiting key done →
      s.caller done = .holding key ∨ s.caller done = .releasing key ∨
        s.step (.wake c) = some (s.setCaller c (.trying key)) := by
  have h := sound_of_run hrun
  have hkeys : ∀ key, key ∈ s.held.keys ↔ ∃ c < s.callers, s.caller c = .holding key := by
    intro key
    rw [← AList.mem_keys, ← AList.lookup_isSome, Option.isSome_iff_exists]
    simp only [h.entry]
  refine ⟨fun c d key hc hd hold hold' => ?_, hkeys, fun e t hstep => ?_, ?_⟩
  · exact Option.some.inj ((h.entry.mpr ⟨hc, hold⟩).symm.trans (h.entry.mpr ⟨hd, hold'⟩))
  · cases stepped_of_step hstep with
    | comes | waits | wakes | closes | rests => exact .inl rfl
    | @takes c key _ _ hfree =>
      have hnew : key ∉ s.held.keys := fun hin => by
        have hsome := AList.lookup_isSome.mpr (AList.mem_keys.mpr hin)
        rw [hfree] at hsome
        cases hsome
      refine .inr (.inl ⟨key, hnew, ?_⟩)
      show (s.held.insert key c).keys = _
      rw [AList.keys_insert, List.erase_of_not_mem hnew]
    | gives hc hcaller =>
      exact .inr (.inr ⟨_, (hkeys _).mpr ⟨_, hc, hcaller⟩, AList.keys_erase _ _⟩)
  · intro c key done hc hwait
    obtain ⟨-, hold | hold | hold⟩ := h.waiting hc hwait
    · exact .inl hold
    · exact .inr (.inl hold)
    · exact .inr (.inr (by simp [step, hwait, hold]))

/-- The second call finds the key taken, and a third takes it between the release and the close of
the channel the second waits for. -/
def overtaken : List Event :=
  [.claim "k", .look 0, .claim "k", .look 1, .release 0, .claim "k", .look 2, .closeDone 0]

theorem overtaken_held_once : ∃ s, Trace.exec step {} overtaken = some s ∧ s.held.keys = ["k"] ∧
    s.caller 2 = .holding "k" ∧ s.step (.wake 1) = some (s.setCaller 1 (.trying "k")) := by
  obtain ⟨s, hrun, hcallers, hheld, hfirst, hwait, hthird⟩ :
      ∃ s, Trace.exec step {} overtaken = some s ∧ s.callers = 3 ∧ s.held.keys = ["k"] ∧
        s.caller 0 = .released "k" ∧ s.caller 1 = .waiting "k" 0 ∧ s.caller 2 = .holding "k" := by
    decide +kernel
  obtain ⟨-, -, -, hwaiting⟩ := keys_held_once hrun
  obtain hold | hold | hwake := hwaiting 1 "k" 0 (by omega) hwait
  · simp [hfirst] at hold
  · simp [hfirst] at hold
  · exact ⟨s, hrun, hheld, hthird, hwake⟩

/-- Some way on ends with the key in the call's hands. -/
def CanTake (s : KeyClaims) (c : Nat) (key : String) : Prop :=
  ∃ events t, Trace.exec step s events = some t ∧ t.caller c = .holding key

theorem CanTake.of_step (hstep : s.step e = some t) (h : CanTake t c key) : CanTake s c key := by
  obtain ⟨events, u, hrun, hholding⟩ := h
  exact ⟨e :: events, u, Trace.exec_cons.mpr ⟨t, hstep, hrun⟩, hholding⟩

theorem canTake_of_free (hc : c < s.callers) (hcaller : s.caller c = .trying key)
    (hfree : s.held.lookup key = none) : CanTake s c key := by
  refine CanTake.of_step (e := .look c)
    (t := { s.setCaller c (.holding key) with held := s.held.insert key c }) ?_ ⟨[], _, rfl, ?_⟩
  · simp [step, hcaller, hc, hfree]
  · simp

theorem canTake_of_trying (h : Sound s) (hc : c < s.callers) (hcaller : s.caller c = .trying key) :
    CanTake s c key := by
  cases hlookup : s.held.lookup key with
  | none => exact canTake_of_free hc hcaller hlookup
  | some d =>
    obtain ⟨hd, hold⟩ := h.entry.mp hlookup
    have hcd : c ≠ d := ne_of_apply_ne s.caller (by simp [hcaller, hold])
    refine CanTake.of_step (e := .release d)
      (t := { s.setCaller d (.releasing key) with held := s.held.erase key }) ?_ ?_
    · simp [step, hold, hd]
    · exact canTake_of_free hc (by simp [hcd, hcaller]) (by simp)

theorem canTake_of_released (h : Sound s) (hc : c < s.callers)
    (hcaller : s.caller c = .waiting key d) (hd : s.caller d = .released key) :
      CanTake s c key := by
  have hwake : s.step (.wake c) = some (s.setCaller c (.trying key)) := by
    simp [step, hcaller, hd]
  exact .of_step hwake
    (canTake_of_trying (sound_step h (stepped_of_step hwake)) hc (by simp))

theorem canTake_of_releasing (h : Sound s) (hc : c < s.callers)
    (hcaller : s.caller c = .waiting key d) (hd : s.caller d = .releasing key) :
      CanTake s c key := by
  have hcd : c ≠ d := ne_of_apply_ne s.caller (by simp [hcaller, hd])
  have hclose : s.step (.closeDone d) = some (s.setCaller d (.released key)) := by
    simp [step, hd]
  exact .of_step hclose (canTake_of_released (sound_step h (stepped_of_step hclose)) hc
    (by simpa [hcd] using hcaller) (by simp))

/-- No call is stuck: whatever the calls have done, one that still wants its key gets it once the
others have released theirs. -/
theorem claim_never_stuck {events : List Event} (hrun : Trace.exec step {} events = some s)
    (hc : c < s.callers) (hwants : s.caller c = .trying key ∨ s.caller c = .waiting key d) :
    s.CanTake c key := by
  have h := sound_of_run hrun
  obtain htrying | hwaiting := hwants
  · exact canTake_of_trying h hc htrying
  obtain ⟨hd, hold | hold | hold⟩ := h.waiting hc hwaiting
  · have hcd : c ≠ d := ne_of_apply_ne s.caller (by simp [hwaiting, hold])
    have hrelease : s.step (.release d) =
        some { s.setCaller d (.releasing key) with held := s.held.erase key } := by
      simp [step, hold, hd]
    refine .of_step hrelease (canTake_of_releasing (d := d)
      (sound_step h (stepped_of_step hrelease)) hc ?_ (by simp))
    simpa [hcd] using hwaiting
  · exact canTake_of_releasing h hc hwaiting hold
  · exact canTake_of_released h hc hwaiting hold

theorem overtaken_not_stuck : ∃ s, Trace.exec step {} overtaken = some s ∧ s.CanTake 1 "k" := by
  obtain ⟨s, hrun, hcallers, hwait⟩ : ∃ s, Trace.exec step {} overtaken = some s ∧
      s.callers = 3 ∧ s.caller 1 = .waiting "k" 0 := by decide +kernel
  exact ⟨s, hrun, claim_never_stuck hrun (by omega) (.inr hwait)⟩

end KeyClaims

end Aquifer
