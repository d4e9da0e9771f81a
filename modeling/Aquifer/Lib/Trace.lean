import Mathlib.Logic.Relation
import Mathlib.Data.List.Basic

/-! Finite runs of a partial step function, and what every run preserves. -/
namespace Trace

universe u v

variable {σ : Type u} {α : Type v} {step : σ → α → Option σ} {as : List α}

/-- The state after the listed events, if each one is enabled in its turn. -/
def exec (step : σ → α → Option σ) : σ → List α → Option σ
  | s, [] => some s
  | s, a :: as => (step s a).bind fun t => exec step t as

/-- Every event of the list meets `ok` in the state it is executed in. -/
def Along (step : σ → α → Option σ) (ok : σ → α → Prop) : σ → List α → Prop
  | _, [] => True
  | s, a :: as => ok s a ∧ ∀ t ∈ step s a, Along step ok t as

instance Along.decide (step : σ → α → Option σ) (ok : σ → α → Prop) [∀ s a, Decidable (ok s a)] :
    (s : σ) → (as : List α) → Decidable (Along step ok s as)
  | _, [] => isTrue trivial
  | s, a :: as =>
    have (t : σ) : Decidable (Along step ok t as) := Along.decide step ok t as
    inferInstanceAs (Decidable (ok s a ∧ ∀ t ∈ step s a, Along step ok t as))

theorem exec_cons {s u : σ} {a : α} :
    exec step s (a :: as) = some u ↔ ∃ t, step s a = some t ∧ exec step t as = some u := by
  simp [exec, Option.bind_eq_some_iff]

theorem exec_append {s t u : σ} {bs : List α} (h : exec step s as = some t)
    (h' : exec step t bs = some u) : exec step s (as ++ bs) = some u := by
  induction as generalizing s with
  | nil =>
    cases h
    exact h'
  | cons a as ih =>
    obtain ⟨w, hw, ht⟩ := exec_cons.mp h
    exact exec_cons.mpr ⟨w, hw, ih ht⟩

/-- What every guarded step preserves holds after every guarded run. -/
theorem exec_invariant {I : σ → Prop} {ok : σ → α → Prop}
    (hstep : ∀ {s t a}, I s → ok s a → step s a = some t → I t) {s t : σ} (hs : I s)
    (hok : Along step ok s as) (h : exec step s as = some t) : I t := by
  induction as generalizing s with
  | nil =>
    cases h
    exact hs
  | cons a as ih =>
    obtain ⟨w, hw, ht⟩ := exec_cons.mp h
    exact ih (hstep hs hok.1 hw) (hok.2 w hw) ht

theorem along_of_forall {ok : α → Prop} (h : ∀ a ∈ as, ok a) (s : σ) :
    Along step (fun _ => ok) s as := by
  induction as generalizing s with
  | nil => trivial
  | cons a as ih =>
    refine ⟨h a List.mem_cons_self, fun t _ => ih ?_ t⟩
    exact fun b hb => h b (List.mem_cons_of_mem a hb)

theorem Along.and {ok ok' : σ → α → Prop} {s : σ} (h : Along step ok s as)
    (h' : Along step ok' s as) : Along step (fun s a => ok s a ∧ ok' s a) s as := by
  induction as generalizing s with
  | nil => trivial
  | cons a as ih => exact ⟨⟨h.1, h'.1⟩, fun t ht => ih (h.2 t ht) (h'.2 t ht)⟩

/-- What every step preserves holds after every run. -/
theorem exec_always {I : σ → Prop} (hstep : ∀ {s t a}, I s → step s a = some t → I t) {s t : σ}
    (hs : I s) (h : exec step s as = some t) : I t :=
  exec_invariant (fun hs _ => hstep hs) hs (along_of_forall (fun _ _ => trivial) s) h

/-- A condition `Q` that a guarded step keeps only under `K` and starts only in an `S` state has
held, with every event since under `K`, from the beginning or from an `S` state on. -/
theorem exec_since {I Q S : σ → Prop} {G K : σ → α → Prop}
    (hinv : ∀ {s t a}, I s → G s a → step s a = some t → I t)
    (hstep : ∀ {s t a}, I s → G s a → step s a = some t → Q t → S t ∨ Q s ∧ K s a) {s t : σ}
    (hs : I s) (hguard : Along step G s as) (h : exec step s as = some t) (ht : Q t) :
    (Q s ∧ Along step K s as) ∨ ∃ before during u, as = before ++ during ∧
      exec step s before = some u ∧ exec step u during = some t ∧ S u ∧
        Along step K u during := by
  induction as generalizing s with
  | nil =>
    cases h
    exact .inl ⟨ht, trivial⟩
  | cons a as ih =>
    obtain ⟨w, hw, hrest⟩ := exec_cons.mp h
    have hprepend : ∀ {before u}, exec step w before = some u →
        exec step s (a :: before) = some u := fun hu => exec_cons.mpr ⟨w, hw, hu⟩
    rcases ih (hinv hs hguard.1 hw) (hguard.2 w hw) hrest with
      ⟨hQ, halong⟩ | ⟨before, during, u, rfl, hu, hduring, hstart, halong⟩
    · rcases hstep hs hguard.1 hw hQ with hstart | ⟨hQs, hok⟩
      · exact .inr ⟨[a], as, w, rfl, hprepend rfl, hrest, hstart, halong⟩
      · refine .inl ⟨hQs, hok, fun t ht => ?_⟩
        obtain rfl : w = t := Option.some.inj (hw.symm.trans ht)
        exact halong
    · exact .inr ⟨a :: before, during, u, rfl, hprepend hu, hduring, hstart, halong⟩

end Trace
