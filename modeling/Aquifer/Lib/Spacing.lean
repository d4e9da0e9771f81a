import Mathlib.Algebra.Order.Field.Basic
import Mathlib.Data.List.Pairwise
import Mathlib.Tactic.Linarith
import Mathlib.Tactic.Ring

/-! Points in time that lie at least a fixed distance apart, and how many fit in a window. -/

universe u v

/-- Each entry lies at least `d` after every entry before it, as `f` places them. -/
def Spaced {α : Type u} {K : Type v} [Add K] [LE K] (f : α → K) (d : K) (xs : List α) : Prop :=
  xs.Pairwise fun a b => f a + d ≤ f b

namespace Spaced

variable {α : Type u} {K : Type v} [Field K] [LinearOrder K] [IsStrictOrderedRing K]
  {f : α → K} {d lo hi : K} {xs ys : List α}

omit [IsStrictOrderedRing K] in
theorem sublist (h : Spaced f d ys) (hsub : xs.Sublist ys) : Spaced f d xs :=
  List.Pairwise.sublist hsub h

/-- From the first of `n + 1` points to the end of their window there is room for `n` gaps. -/
theorem length_mul_le {x : α} (h : Spaced f d (x :: xs)) (hhi : ∀ y ∈ x :: xs, f y ≤ hi) :
    (xs.length : K) * d ≤ hi - f x := by
  induction xs generalizing x with
  | nil =>
    have := hhi x List.mem_cons_self
    simpa using this
  | cons y ys ih =>
    have hxy : f x + d ≤ f y := List.rel_of_pairwise_cons h List.mem_cons_self
    have hrest := ih (List.Pairwise.of_cons h) fun z hz => hhi z (List.mem_cons_of_mem x hz)
    push_cast [List.length_cons]
    linarith

/-- At most `(hi - lo) / d + 1` points that lie `d` apart fit between `lo` and `hi`. -/
theorem length_le (hd : 0 < d) (h : Spaced f d xs) (hlo : ∀ x ∈ xs, lo ≤ f x)
    (hhi : ∀ x ∈ xs, f x ≤ hi) (hwin : lo ≤ hi) : (xs.length : K) ≤ (hi - lo) / d + 1 := by
  cases xs with
  | nil =>
    have : 0 ≤ (hi - lo) / d := div_nonneg (sub_nonneg.mpr hwin) hd.le
    push_cast [List.length_nil]
    linarith
  | cons x xs =>
    have hroom := h.length_mul_le hhi
    have hx := hlo x List.mem_cons_self
    have : (xs.length : K) ≤ (hi - lo) / d := by
      rw [le_div_iff₀ hd]
      linarith
    push_cast [List.length_cons]
    linarith

end Spaced
