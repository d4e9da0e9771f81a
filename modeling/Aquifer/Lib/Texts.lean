import Mathlib.Algebra.GroupWithZero.Nat
import Mathlib.Data.List.Lex
import Mathlib.Data.Nat.Basic
import Mathlib.Order.Lattice
import Mathlib.Tactic.Common

/-! Texts joined at a separator, texts in lexicographic order, numbers written with a fixed number
of digits, which sort as the numbers do, and integers in decimal. -/
namespace Texts

universe u

variable {α : Type u}

/-- A list splits at the first `a` in only one way. -/
theorem split_inj {a : α} {x x' z z' : List α} (hx : a ∉ x) (hx' : a ∉ x')
    (h : x ++ a :: z = x' ++ a :: z') : x = x' ∧ z = z' := by
  rcases List.append_eq_append_iff.mp h with ⟨l, rfl, hl⟩ | ⟨l, rfl, hl⟩ <;> cases l <;> simp_all

/-- A list splits at the last `a` in only one way. -/
theorem split_last_inj {a : α} {x x' z z' : List α} (hz : a ∉ z) (hz' : a ∉ z')
    (h : x ++ a :: z = x' ++ a :: z') : x = x' ∧ z = z' := by
  have hback : z.reverse ++ a :: x.reverse = z'.reverse ++ a :: x'.reverse := by
    simpa using congrArg List.reverse h
  obtain ⟨hz, hx⟩ := split_inj (by simpa using hz) (by simpa using hz') hback
  exact ⟨List.reverse_injective hx, List.reverse_injective hz⟩

/-- Where two ways to split one list at an `a` differ, one left part goes on past the other's
`a`. -/
theorem split_cases {a : α} {x y z z' : List α} (h : x ++ a :: z = y ++ a :: z') :
    (x = y ∧ z = z') ∨ x ++ [a] <+: y ∨ y ++ [a] <+: x := by
  rcases List.append_eq_append_iff.mp h with ⟨m, rfl, hm⟩ | ⟨m, rfl, hm⟩
  all_goals
    cases m with
    | nil => simp_all
    | cons b m =>
      obtain ⟨rfl, -⟩ := List.cons.inj hm
      simp

variable [LinearOrder α] {b : Nat} {d : Nat → α} {w m n : Nat} {x y s t : List α}

/-- The `w` digits of `n` in base `b`, the most significant first; `n` has no more than that. -/
def digits (b : Nat) (d : Nat → α) : Nat → Nat → List α
  | 0, _ => []
  | w + 1, n => d (n / b ^ w) :: digits b d w (n % b ^ w)

omit [LinearOrder α] in
@[simp] theorem length_digits (w n : Nat) : (digits b d w n).length = w := by
  induction w generalizing n with
  | zero => rfl
  | succ w ih => simp [digits, ih]

/-- Texts with heads of one length compare by the heads first. -/
theorem append_lt_append_iff (h : x.length = y.length) :
    x ++ s < y ++ t ↔ x < y ∨ x = y ∧ s < t := by
  induction x generalizing y with
  | nil =>
    obtain rfl : y = [] := List.length_eq_zero_iff.mp h.symm
    simp
  | cons a x ih =>
    cases y with
    | nil => cases h
    | cons c y =>
      rw [List.cons_append, List.cons_append, List.cons_lt_cons_iff, List.cons_lt_cons_iff,
        ih (Nat.succ.inj h), List.cons.injEq]
      tauto

/-- A text compares with a bound of the length of its head as the head does. -/
theorem append_lt_iff (h : x.length = y.length) : x ++ s < y ↔ x < y := by
  have := append_lt_append_iff (s := s) (t := []) h
  rw [List.append_nil] at this
  rw [this]
  simp

theorem nil_le (x : List α) : [] ≤ x := not_lt.mp (List.not_lt_nil x)

theorem cons_le_cons_iff {a c : α} : a :: x ≤ c :: y ↔ a < c ∨ a = c ∧ x ≤ y := by
  rw [← not_lt, List.cons_lt_cons_iff, ← not_lt]
  rcases lt_trichotomy a c with h | rfl | h
  · simp [h, h.not_gt, h.ne']
  · simp
  · simp [h, h.not_gt, h.ne']

theorem le_append (x s : List α) : x ≤ x ++ s := by
  induction x with
  | nil => exact nil_le s
  | cons a x ih => exact cons_le_cons_iff.mpr (.inr ⟨rfl, ih⟩)

/-- The first text past `x` is `x` followed by the least character. -/
theorem append_least_le_iff {a : α} (ha : ∀ c, a ≤ c) : x ++ [a] ≤ y ↔ x < y := by
  induction x generalizing y with
  | nil =>
    cases y with
    | nil => simp
    | cons c y =>
      refine ⟨fun _ => List.nil_lt_cons c y, fun _ => cons_le_cons_iff.mpr ?_⟩
      rcases (ha c).lt_or_eq with h | h
      · exact .inl h
      · exact .inr ⟨h, nil_le _⟩
  | cons c x ih =>
    cases y with
    | nil => simp
    | cons e y => rw [List.cons_append, cons_le_cons_iff, List.cons_lt_cons_iff, ih]

/-- Between `x` with the least character and `x` with the next one lie the texts that begin with
the former. -/
theorem prefix_iff_between {a e : α} (hae : a < e) (ha : ∀ c, a ≤ c) (he : ∀ c, c < e → c ≤ a) :
    x ++ [a] <+: y ↔ x ++ [a] ≤ y ∧ y < x ++ [e] := by
  induction x generalizing y with
  | nil =>
    cases y with
    | nil => simp
    | cons c y =>
      rw [List.nil_append, List.nil_append, cons_le_cons_iff, List.cons_lt_cons_iff,
        List.cons_prefix_cons]
      constructor
      · rintro ⟨rfl, -⟩
        exact ⟨.inr ⟨rfl, nil_le _⟩, .inl hae⟩
      · rintro ⟨-, hce | ⟨-, hnil⟩⟩
        · exact ⟨le_antisymm (ha c) (he c hce), List.nil_prefix⟩
        · exact absurd hnil (List.not_lt_nil y)
  | cons c x ih =>
    cases y with
    | nil => simp
    | cons f y =>
      rw [List.cons_append, List.cons_append, List.cons_prefix_cons, cons_le_cons_iff,
        List.cons_lt_cons_iff, ih]
      constructor
      · rintro ⟨rfl, h⟩
        exact ⟨.inr ⟨rfl, h.1⟩, .inr ⟨rfl, h.2⟩⟩
      · rintro ⟨hl | ⟨rfl, hl⟩, hu | ⟨heq, hu⟩⟩
        · exact absurd hl hu.not_gt
        · exact absurd heq hl.ne'
        · exact absurd hu (lt_irrefl _)
        · exact ⟨rfl, hl, hu⟩

variable (hd : ∀ i j, i < j → j < b → d i < d j)
include hd

theorem digits_lt_digits (hn : n < b ^ w) (h : m < n) : digits b d w m < digits b d w n := by
  induction w generalizing m n with
  | zero =>
    rw [Nat.pow_zero] at hn
    omega
  | succ w ih =>
    rw [Nat.pow_succ] at hn
    have hb : 0 < b ^ w := Nat.pos_of_mul_pos_right (Nat.zero_lt_of_lt hn)
    have htop : n / b ^ w < b := Nat.div_lt_of_lt_mul hn
    rw [digits, digits, List.cons_lt_cons_iff]
    rcases Nat.lt_or_eq_of_le (Nat.div_le_div_right (c := b ^ w) h.le) with hlt | heq
    · exact .inl (hd _ _ hlt htop)
    · refine .inr ⟨congrArg d heq, ih (Nat.mod_lt n hb) ?_⟩
      have hm := Nat.div_add_mod m (b ^ w)
      have hn := Nat.div_add_mod n (b ^ w)
      rw [heq] at hm
      omega

theorem digits_lt_iff (hm : m < b ^ w) (hn : n < b ^ w) :
    digits b d w m < digits b d w n ↔ m < n := by
  refine ⟨fun h => ?_, digits_lt_digits hd hn⟩
  by_contra hle
  rcases Nat.lt_or_eq_of_le (Nat.not_lt.mp hle) with hlt | rfl
  · exact absurd h (digits_lt_digits hd hm hlt).not_gt
  · exact absurd h (lt_irrefl _)

omit hd

/-! ### Integers in decimal -/

def isInt64 (n : Int) : Bool := -9223372036854775808 ≤ n && n < 9223372036854775808

/-- `strconv.FormatInt` in base 10. -/
def formatInt (n : Int) : List Char :=
  if n < 0 then '-' :: Nat.toDigits 10 n.natAbs else Nat.toDigits 10 n.natAbs

def parseDigits (negative : Bool) (ds : List Char) : Option Int :=
  let n : Int := Nat.ofDigitChars 10 ds 0
  let v := if negative then -n else n
  if ds ≠ [] ∧ ds.all Char.isDigit ∧ isInt64 v then some v else none

/-- `strconv.ParseInt` in base 10, to 64 bits. -/
def parseInt : List Char → Option Int
  | '-' :: ds => parseDigits true ds
  | '+' :: ds => parseDigits false ds
  | ds => parseDigits false ds

theorem isDigit_of_mem_formatInt {n : Int} {c : Char} (h : c ∈ formatInt n) :
    c = '-' ∨ c.isDigit = true := by
  have hdigit : ∀ c ∈ Nat.toDigits 10 n.natAbs, c.isDigit = true :=
    fun c hc => Nat.isDigit_of_mem_toDigits (by decide) (by decide) hc
  unfold formatInt at h
  split at h
  · rcases List.mem_cons.mp h with rfl | hc
    · exact .inl rfl
    · exact .inr (hdigit c hc)
  · exact .inr (hdigit c h)

theorem formatInt_injective : Function.Injective formatInt := by
  intro n n' h
  have habs : ∀ {k k' : Nat}, Nat.toDigits 10 k = Nat.toDigits 10 k' → k = k' := by
    intro k k' hk
    simpa [Nat.ofDigitChars_ten_toDigits] using congrArg (Nat.ofDigitChars 10 · 0) hk
  -- a minus sign is no digit
  have hsign : ∀ {k k' : Nat}, '-' :: Nat.toDigits 10 k ≠ Nat.toDigits 10 k' := by
    intro k k' hk
    have := Nat.isDigit_of_mem_toDigits (b := 10) (n := k') (c := '-') (by decide) (by decide)
      (hk ▸ List.mem_cons_self)
    cases this
  unfold formatInt at h
  split at h <;> split at h
  · have := habs (List.cons.inj h).2
    omega
  · exact absurd h hsign
  · exact absurd h.symm hsign
  · have := habs h
    omega
theorem parseDigits_toDigits (negative : Bool) (n : Nat)
    (h : isInt64 (if negative then -(n : Int) else n) = true) :
    parseDigits negative (Nat.toDigits 10 n) = some (if negative then -(n : Int) else n) := by
  have hdigits : (Nat.toDigits 10 n).all Char.isDigit = true :=
    List.all_eq_true.mpr fun c hc => Nat.isDigit_of_mem_toDigits (by decide) (by decide) hc
  rw [parseDigits, Nat.ofDigitChars_ten_toDigits]
  exact if_pos ⟨Nat.toDigits_ne_nil, hdigits, h⟩

theorem parseInt_formatInt {n : Int} (h : isInt64 n = true) : parseInt (formatInt n) = some n := by
  unfold formatInt
  split
  · next hneg =>
    have hn : -(n.natAbs : Int) = n := by omega
    have hread := parseDigits_toDigits true n.natAbs
    rw [if_pos rfl, hn] at hread
    exact hread h
  · next hnonneg =>
    have hn : (n.natAbs : Int) = n := by omega
    have hread := parseDigits_toDigits false n.natAbs
    rw [if_neg (by simp), hn] at hread
    rw [← hread h]
    -- a digit is no sign
    unfold parseInt
    split
    · next ds heq =>
      have := Nat.isDigit_of_mem_toDigits (b := 10) (n := n.natAbs) (c := '-') (by decide)
        (by decide) (heq ▸ List.mem_cons_self)
      cases this
    · next ds heq =>
      have := Nat.isDigit_of_mem_toDigits (b := 10) (n := n.natAbs) (c := '+') (by decide)
        (by decide) (heq ▸ List.mem_cons_self)
      cases this
    · rfl

end Texts
