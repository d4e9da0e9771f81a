import Mathlib.Algebra.Order.Field.Power
import Mathlib.Data.Int.Log
import Mathlib.Data.Rat.Floor
import Mathlib.Tactic.Linarith
import Mathlib.Tactic.Positivity
import Mathlib.Tactic.NormNum

/-! IEEE 754 binary64: the finite values among the rationals, rounding to the nearest of them with
ties to even, and the infinities and NaN. The two zeros are one value. -/
namespace Binary64

variable {x y g : ℚ}

/-! ### Rounding to an integer -/

/-- The nearest integer, and of two the even one. -/
def roundEven (x : ℚ) : ℤ :=
  if Int.fract x < 1 / 2 ∨ Int.fract x = 1 / 2 ∧ Even ⌊x⌋ then ⌊x⌋ else ⌊x⌋ + 1

theorem roundEven_intCast (n : ℤ) : roundEven n = n := by
  rw [roundEven, if_pos (.inl (by rw [Int.fract_intCast]; norm_num)), Int.floor_intCast]

theorem floor_le_roundEven : ⌊x⌋ ≤ roundEven x := by
  unfold roundEven
  split_ifs <;> omega

theorem roundEven_le : roundEven x ≤ ⌊x⌋ + 1 := by
  unfold roundEven
  split_ifs <;> omega

theorem roundEven_mono (h : x ≤ y) : roundEven x ≤ roundEven y := by
  rcases (Int.floor_mono h).lt_or_eq with hlt | heq
  · exact roundEven_le.trans (hlt.trans_le floor_le_roundEven)
  · -- on one unit interval what is rounded down is what is below the middle
    have hfract : Int.fract x ≤ Int.fract y := by
      rw [Int.fract, Int.fract, heq]
      linarith
    unfold roundEven
    rw [heq]
    split_ifs with hx hy hy
    · exact le_rfl
    · omega
    · refine absurd (hy.elim (fun hlt => .inl (hfract.trans_lt hlt)) fun heven => ?_) hx
      exact (hfract.trans_eq heven.1).lt_or_eq.imp_right fun heq' => ⟨heq', heven.2⟩
    · exact le_rfl

/-- What is rounded is at most half a unit away. -/
theorem abs_roundEven_sub_le : |(roundEven x : ℚ) - x| ≤ 1 / 2 := by
  have hsplit := Int.floor_add_fract x
  have hnonneg := Int.fract_nonneg x
  have hlt := Int.fract_lt_one x
  unfold roundEven
  rw [abs_le]
  split_ifs with hdown
  · have hhalf : Int.fract x ≤ 1 / 2 := hdown.elim le_of_lt fun h => h.1.le
    constructor <;> linarith
  · have hhalf : 1 / 2 ≤ Int.fract x := not_lt.mp fun h => hdown (.inl h)
    push_cast
    constructor <;> linarith

/-! ### Rounding to 53 bits -/

/-- The exponent of the last bit of the values around `x`. -/
def lastBit (x : ℚ) : ℤ := max (Int.log 2 x - 52) (-1074)

/-- Rounding of what is not negative, with no bound above. -/
def roundPos (x : ℚ) : ℚ := roundEven (x / 2 ^ lastBit x) * 2 ^ lastBit x

/-- The values with 53 bits and no bit below the last one of the subnormals. -/
def Rep (x : ℚ) : Prop := ∃ m e : ℤ, |m| < 2 ^ 53 ∧ -1074 ≤ e ∧ x = m * 2 ^ e

theorem zpow_two_pos (e : ℤ) : (0 : ℚ) < 2 ^ e := zpow_pos two_pos e

theorem zpow_div_zpow {a b : ℤ} (h : b ≤ a) : ∃ n : ℕ, (2 : ℚ) ^ a / 2 ^ b = ((2 ^ n : ℤ) : ℚ) := by
  refine ⟨(a - b).toNat, ?_⟩
  rw [← zpow_sub₀ two_ne_zero]
  push_cast
  rw [← zpow_natCast, Int.toNat_of_nonneg (sub_nonneg.mpr h)]

theorem roundPos_zero : roundPos 0 = 0 := by
  have hzero : roundEven 0 = 0 := roundEven_intCast 0
  rw [roundPos, zero_div, hzero, Int.cast_zero, zero_mul]

theorem roundPos_nonneg (h : 0 ≤ x) : 0 ≤ roundPos x := by
  have hzero : roundEven 0 = 0 := roundEven_intCast 0
  have hround : 0 ≤ roundEven (x / 2 ^ lastBit x) :=
    hzero ▸ roundEven_mono (div_nonneg h (zpow_two_pos _).le)
  exact mul_nonneg (Int.cast_nonneg hround) (zpow_two_pos _).le

/-- Rounding does not pass a whole number of units. -/
theorem roundPos_le_of_le {n : ℤ} (hg : g / 2 ^ lastBit x = n) (h : x ≤ g) : roundPos x ≤ g := by
  have hround : roundEven (x / 2 ^ lastBit x) ≤ n := by
    rw [← roundEven_intCast n, ← hg]
    exact roundEven_mono (div_le_div_of_nonneg_right h (zpow_two_pos _).le)
  rw [roundPos, ← le_div_iff₀ (zpow_two_pos _), hg]
  exact Int.cast_le.mpr hround

theorem le_roundPos_of_le {n : ℤ} (hg : g / 2 ^ lastBit x = n) (h : g ≤ x) : g ≤ roundPos x := by
  have hround : n ≤ roundEven (x / 2 ^ lastBit x) := by
    rw [← roundEven_intCast n, ← hg]
    exact roundEven_mono (div_le_div_of_nonneg_right h (zpow_two_pos _).le)
  rw [roundPos, ← div_le_iff₀ (zpow_two_pos _), hg]
  exact Int.cast_le.mpr hround

theorem lt_zpow_lastBit (x : ℚ) : x < 2 ^ (lastBit x + 53) := by
  have hlog : x < 2 ^ (Int.log 2 x + 1) := mod_cast Int.lt_zpow_succ_log_self one_lt_two x
  refine hlog.trans_le (zpow_le_zpow_right₀ one_le_two ?_)
  have := le_max_left (Int.log 2 x - 52) (-1074)
  rw [lastBit]
  omega

theorem zpow_log_le (h : 0 < x) : (2 : ℚ) ^ Int.log 2 x ≤ x :=
  mod_cast Int.zpow_log_le_self one_lt_two h

theorem roundPos_mono (hx : 0 ≤ x) (h : x ≤ y) : roundPos x ≤ roundPos y := by
  rcases hx.eq_or_lt with rfl | hpos
  · rw [roundPos_zero]
    exact roundPos_nonneg h
  have hlog : Int.log 2 x ≤ Int.log 2 y := Int.log_mono_right hpos h
  rcases (max_le_max_right (-1074) (sub_le_sub_right hlog 52)).eq_or_lt with heq | hlt
  · have hsame : lastBit x = lastBit y := heq
    rw [roundPos, roundPos, hsame]
    refine mul_le_mul_of_nonneg_right (Int.cast_le.mpr (roundEven_mono ?_)) (zpow_two_pos _).le
    exact div_le_div_of_nonneg_right h (zpow_two_pos _).le
  · -- with different last bits there is a power of two between them, which both roundings keep
    have hnormal : lastBit y = Int.log 2 y - 52 := by
      rcases le_total (Int.log 2 y - 52) (-1074) with hle | hle
      · exact absurd hlt (not_lt.mpr ((max_eq_right hle).le.trans (le_max_right _ _)))
      · exact max_eq_left hle
    have hbits : lastBit x < Int.log 2 y - 52 := hnormal ▸ hlt
    have hless : Int.log 2 x < Int.log 2 y := by
      have := le_max_left (Int.log 2 x - 52) (-1074)
      rw [lastBit] at hbits
      omega
    have hbelow : x ≤ 2 ^ Int.log 2 y := by
      have hlt : x < 2 ^ (Int.log 2 x + 1) := mod_cast Int.lt_zpow_succ_log_self one_lt_two x
      exact hlt.le.trans (zpow_le_zpow_right₀ one_le_two (by omega))
    obtain ⟨n, hn⟩ := zpow_div_zpow (show lastBit x ≤ Int.log 2 y by omega)
    obtain ⟨m, hm⟩ := zpow_div_zpow (show lastBit y ≤ Int.log 2 y by omega)
    calc roundPos x ≤ 2 ^ Int.log 2 y := roundPos_le_of_le hn hbelow
      _ ≤ roundPos y := le_roundPos_of_le hm (zpow_log_le (hpos.trans_le h))

theorem roundPos_rep (hx : 0 ≤ x) (h : Rep x) : roundPos x = x := by
  rcases hx.eq_or_lt with rfl | hpos
  · exact roundPos_zero
  obtain ⟨m, e, hm, he, heq⟩ := h
  have hlast : lastBit x ≤ e := by
    refine max_le ?_ he
    by_contra hlt
    -- otherwise the value has a bit too many
    have hlow : (2 : ℚ) ^ (e + 53) ≤ x :=
      (zpow_le_zpow_right₀ one_le_two (by omega)).trans (zpow_log_le hpos)
    rw [heq, zpow_add₀ two_ne_zero, mul_comm, mul_le_mul_iff_left₀ (zpow_two_pos e)] at hlow
    have hbits : (2 : ℤ) ^ 53 ≤ m := by exact_mod_cast hlow
    exact absurd (lt_of_abs_lt hm) (not_lt.mpr hbits)
  obtain ⟨n, hn⟩ := zpow_div_zpow hlast
  have hunits : x / 2 ^ lastBit x = ((m * 2 ^ n : ℤ) : ℚ) := by
    rw [Int.cast_mul, ← hn, heq, mul_div_assoc]
  rw [roundPos, hunits, roundEven_intCast, ← hunits, div_mul_cancel₀ _ (zpow_two_pos _).ne']

theorem rep_roundPos (h : 0 ≤ x) : Rep (roundPos x) := by
  have hmin : -1074 ≤ lastBit x := le_max_right _ _
  obtain ⟨n, hn⟩ := zpow_div_zpow (show lastBit x ≤ lastBit x + 53 by omega)
  have hmost : roundPos x ≤ 2 ^ (lastBit x + 53) := roundPos_le_of_le hn (lt_zpow_lastBit x).le
  have hnonneg := roundPos_nonneg h
  rcases hmost.lt_or_eq with hlt | heq
  · refine ⟨roundEven (x / 2 ^ lastBit x), lastBit x, ?_, hmin, rfl⟩
    rw [roundPos, zpow_add₀ two_ne_zero, mul_comm, mul_lt_mul_iff_right₀ (zpow_two_pos _)] at hlt
    rw [roundPos] at hnonneg
    have hpos : 0 ≤ roundEven (x / 2 ^ lastBit x) :=
      Int.cast_nonneg_iff.mp (nonneg_of_mul_nonneg_left hnonneg (zpow_two_pos _))
    rw [abs_of_nonneg hpos]
    exact_mod_cast hlt
  · refine ⟨2 ^ 52, lastBit x + 1, by norm_num, by omega, ?_⟩
    rw [heq, show lastBit x + 53 = 52 + (lastBit x + 1) by omega, zpow_add₀ two_ne_zero]
    norm_num

/-! ### The values -/

/-- Rounding with no bound, which is the same on both sides of zero. -/
def nearest (x : ℚ) : ℚ := if x < 0 then -roundPos (-x) else roundPos x

theorem Rep.neg (h : Rep x) : Rep (-x) := by
  obtain ⟨m, e, hm, he, heq⟩ := h
  exact ⟨-m, e, by rwa [abs_neg], he, by rw [heq, Int.cast_neg, neg_mul]⟩

theorem rep_nearest (x : ℚ) : Rep (nearest x) := by
  unfold nearest
  split_ifs with hneg
  · exact (rep_roundPos (neg_nonneg.mpr hneg.le)).neg
  · exact rep_roundPos (not_lt.mp hneg)

theorem nearest_of_nonneg (h : 0 ≤ x) : nearest x = roundPos x := if_neg (not_lt.mpr h)

/-- Rounding does not pass a value. -/
theorem le_nearest (hg : 0 ≤ g) (hrep : Rep g) (h : g ≤ x) : g ≤ nearest x := by
  rw [nearest_of_nonneg (hg.trans h)]
  calc g = roundPos g := (roundPos_rep hg hrep).symm
    _ ≤ roundPos x := roundPos_mono hg h

/-- The rounding of what is not subnormal is off by half of the last of 53 bits at most. -/
theorem nearest_le (h : (2 : ℚ) ^ (-1022 : ℤ) ≤ x) : nearest x ≤ x * (1 + 1 / 2 ^ 53) := by
  have hpos : 0 < x := (zpow_two_pos _).trans_le h
  have hlog : -1022 ≤ Int.log 2 x := (Int.zpow_le_iff_le_log one_lt_two hpos).mp (mod_cast h)
  have hbit : lastBit x = Int.log 2 x - 52 := max_eq_left (by omega)
  have herr := (abs_le.mp (abs_roundEven_sub_le (x := x / 2 ^ lastBit x))).2
  have hunit : (2 : ℚ) ^ lastBit x ≤ x / 2 ^ 52 := by
    rw [hbit, zpow_sub₀ two_ne_zero]
    exact div_le_div_of_nonneg_right (zpow_log_le hpos) (by norm_num)
  have hround : roundPos x ≤ x + 1 / 2 * 2 ^ lastBit x := by
    have hscaled := mul_le_mul_of_nonneg_right herr (zpow_two_pos (lastBit x)).le
    rw [sub_mul, div_mul_cancel₀ _ (zpow_two_pos _).ne'] at hscaled
    rw [roundPos]
    linarith
  rw [nearest_of_nonneg hpos.le]
  calc roundPos x ≤ x + 1 / 2 * 2 ^ lastBit x := hround
    _ ≤ x + 1 / 2 * (x / 2 ^ 52) := by linarith
    _ = x * (1 + 1 / 2 ^ 53) := by ring

/-- A finite value. -/
structure Finite where
  val : ℚ
  rep : Rep val
  bounded : |val| < 2 ^ 1024

theorem Finite.ext {a b : Finite} (h : a.val = b.val) : a = b := by
  cases a
  cases b
  cases h
  rfl

instance : DecidableEq Finite := fun a b =>
  decidable_of_iff (a.val = b.val) ⟨Finite.ext, congrArg Finite.val⟩

inductive Value
  | nan
  | inf (negative : Bool)
  | fin (x : Finite)
deriving DecidableEq

namespace Finite

variable {a b : Finite}

def min (a b : Finite) : Finite := if a.val < b.val then a else b

def max (a b : Finite) : Finite := if b.val < a.val then a else b

@[simp] theorem val_min : (min a b).val = Min.min a.val b.val := by
  unfold min
  split_ifs with h
  · exact (min_eq_left h.le).symm
  · exact (min_eq_right (not_lt.mp h)).symm

@[simp] theorem val_max : (max a b).val = Max.max a.val b.val := by
  unfold max
  split_ifs with h
  · exact (max_eq_left h.le).symm
  · exact (max_eq_right (not_lt.mp h)).symm

end Finite

namespace Value

/-- The value of the smaller, where minus infinity goes before NaN. -/
def min : Value → Value → Value
  | inf true, _ | _, inf true => inf true
  | nan, _ | _, nan => nan
  | inf false, y => y
  | x, inf false => x
  | fin a, fin b => fin (a.min b)

/-- The value of the larger, where infinity goes before NaN. -/
def max : Value → Value → Value
  | inf false, _ | _, inf false => inf false
  | nan, _ | _, nan => nan
  | inf true, y => y
  | x, inf true => x
  | fin a, fin b => fin (a.max b)

/-- The comparison, which is false of NaN. -/
def lt : Value → Value → Bool
  | nan, _ | _, nan => false
  | inf negative, inf negative' => negative && !negative'
  | inf negative, fin _ => negative
  | fin _, inf negative => !negative
  | fin a, fin b => a.val < b.val

/-- The value of a rational: the nearest finite one, or infinity past the largest. -/
def ofRat (x : ℚ) : Value :=
  if h : |nearest x| < 2 ^ 1024 then fin ⟨nearest x, rep_nearest x, h⟩ else inf (x < 0)

/-- The product with a constant that is positive and finite. -/
def scale (k : ℚ) : Value → Value
  | nan => nan
  | inf negative => inf negative
  | fin a => ofRat (a.val * k)

/-- A number that is at most `x`, or minus infinity. -/
def Below (x : ℚ) : Value → Prop
  | nan => False
  | inf negative => negative = true
  | fin a => a.val ≤ x

/-- A number that is at least `x`, or infinity. -/
def Above (x : ℚ) : Value → Prop
  | nan => False
  | inf negative => negative = false
  | fin a => x ≤ a.val

variable {a b : Finite} {k : ℚ} {v w : Value}

theorem Below.cases (h : v.Below x) : v = inf true ∨ ∃ a, v = fin a ∧ a.val ≤ x := by
  cases v with
  | nan => exact h.elim
  | inf negative => exact .inl (congrArg inf h)
  | fin a => exact .inr ⟨a, rfl, h⟩

theorem Above.cases (h : v.Above x) : v = inf false ∨ ∃ a, v = fin a ∧ x ≤ a.val := by
  cases v with
  | nan => exact h.elim
  | inf negative => exact .inl (congrArg inf h)
  | fin a => exact .inr ⟨a, rfl, h⟩

@[simp] theorem min_fin : min (fin a) (fin b) = fin (a.min b) := rfl

@[simp] theorem max_fin : max (fin a) (fin b) = fin (a.max b) := rfl

/-- A product with a constant of at least one is infinite or no smaller. -/
theorem le_scale (ha : 0 ≤ a.val) (hk : 1 ≤ k) : (scale k (fin a)).Above a.val := by
  have hle : a.val ≤ a.val * k := le_mul_of_one_le_right ha hk
  rw [scale, ofRat]
  split_ifs with hfin
  · exact le_nearest ha a.rep hle
  · exact decide_eq_false (not_lt.mpr (ha.trans hle))

/-- Half of what is not subnormal is exact. -/
theorem scale_half (ha : (2 : ℚ) ^ (-1021 : ℤ) ≤ a.val) :
    ∃ b, scale (1 / 2) (fin a) = fin b ∧ b.val = a.val / 2 := by
  have hpos : 0 < a.val := (zpow_two_pos _).trans_le ha
  have hrep : Rep (a.val * (1 / 2)) := by
    obtain ⟨m, e, hm, he, heq⟩ := a.rep
    have hlow : -1074 < e := by
      refine lt_of_le_of_ne he fun hsub => ?_
      -- a value whose last bit is the lowest there is is too small
      have hbits : (m : ℚ) < 2 ^ 53 := by exact_mod_cast lt_of_abs_lt hm
      have hval : a.val < 2 ^ 53 * 2 ^ (-1074 : ℤ) := by
        rw [heq, ← hsub]
        exact mul_lt_mul_of_pos_right hbits (zpow_two_pos _)
      have hsmall : (2 : ℚ) ^ 53 * 2 ^ (-1074 : ℤ) = 2 ^ (-1021 : ℤ) := by
        rw [← zpow_natCast, ← zpow_add₀ two_ne_zero]
        rfl
      exact absurd ha (not_le.mpr (hsmall ▸ hval))
    refine ⟨m, e - 1, hm, by omega, ?_⟩
    rw [heq, zpow_sub₀ two_ne_zero]
    ring
  have hround : nearest (a.val * (1 / 2)) = a.val / 2 := by
    rw [nearest_of_nonneg (by linarith), roundPos_rep (by linarith) hrep]
    ring
  have hfin : |nearest (a.val * (1 / 2))| < 2 ^ 1024 := by
    have hbound := a.bounded
    rw [hround, abs_of_pos (by linarith)]
    rw [abs_of_pos hpos] at hbound
    exact (half_lt_self hpos).trans hbound
  rw [scale, ofRat, dif_pos hfin]
  exact ⟨_, rfl, hround⟩

/-- The smaller of two values is as low as either, unless the other is NaN. -/
theorem Below.min_left (h : v.Below x) (hw : w ≠ nan) : (v.min w).Below x := by
  rcases h.cases with rfl | ⟨a, rfl, ha⟩
  · rfl
  cases w with
  | nan => exact absurd rfl hw
  | inf negative => cases negative <;> first | exact h | rfl
  | fin b =>
    rw [min_fin, Below, Finite.val_min]
    exact (min_le_left _ _).trans ha

theorem Below.min_right (h : w.Below x) (hv : v ≠ nan) : (v.min w).Below x := by
  rcases h.cases with rfl | ⟨b, rfl, hb⟩
  · cases v with
    | nan => exact absurd rfl hv
    | inf negative => cases negative <;> rfl
    | fin a => rfl
  · cases v with
    | nan => exact absurd rfl hv
    | inf negative => cases negative <;> first | exact h | rfl
    | fin a =>
      rw [min_fin, Below, Finite.val_min]
      exact (min_le_right _ _).trans hb

/-- With a floor it is a number between the two. -/
theorem Below.max_fin (h : v.Below x) (ha : a.val ≤ x) :
    ∃ b, v.max (fin a) = fin b ∧ a.val ≤ b.val ∧ b.val ≤ x := by
  rcases h.cases with rfl | ⟨b, rfl, hb⟩
  · exact ⟨a, rfl, le_rfl, ha⟩
  · refine ⟨b.max a, rfl, ?_, ?_⟩ <;> rw [Finite.val_max]
    · exact le_max_right _ _
    · exact max_le hb ha

/-- A ceiling on what is infinite or no smaller leaves a number between the two. -/
theorem Above.min_fin (h : v.Above x) (hx : x ≤ a.val) :
    ∃ b, v.min (fin a) = fin b ∧ x ≤ b.val ∧ b.val ≤ a.val := by
  rcases h.cases with rfl | ⟨b, rfl, hb⟩
  · exact ⟨a, rfl, hx, le_rfl⟩
  · refine ⟨b.min a, rfl, ?_, ?_⟩ <;> rw [Finite.val_min]
    · exact le_min hb hx
    · exact min_le_right _ _

/-! ### Lower bounds, quotients and conversion to integers -/

theorem Above.ne_nan (h : v.Above x) : v ≠ nan := by
  rintro rfl
  exact h

theorem ofRat_ne_nan {x : ℚ} : ofRat x ≠ nan := by
  unfold ofRat
  split <;> simp

theorem scale_ne_nan (hv : v ≠ nan) : scale k v ≠ nan := by
  cases v with
  | nan => exact absurd rfl hv
  | inf negative => simp [scale]
  | fin a => exact ofRat_ne_nan

theorem min_ne_nan (hv : v ≠ nan) (hw : w ≠ nan) : v.min w ≠ nan := by
  cases v with
  | nan => exact absurd rfl hv
  | inf negative =>
    cases w with
    | nan => exact absurd rfl hw
    | inf negative' => cases negative <;> cases negative' <;> simp [min]
    | fin b => cases negative <;> simp [min]
  | fin a =>
    cases w with
    | nan => exact absurd rfl hw
    | inf negative => cases negative <;> simp [min]
    | fin b => simp

/-- The smaller of two values is as high as both. -/
theorem Above.min (h : v.Above x) (hw : w.Above x) : (v.min w).Above x := by
  rcases h.cases with rfl | ⟨a, rfl, ha⟩ <;> rcases hw.cases with rfl | ⟨b, rfl, hb⟩
  · rfl
  · exact hb
  · exact ha
  · rw [Value.min_fin, Above, Finite.val_min]
    exact le_min ha hb

/-- The larger of two values is as high as either, unless the other is NaN. -/
theorem Above.max_right (hv : v ≠ nan) (hw : w.Above x) : (v.max w).Above x := by
  rcases hw.cases with rfl | ⟨b, rfl, hb⟩
  · cases v with
    | nan => exact absurd rfl hv
    | inf negative => cases negative <;> rfl
    | fin a => rfl
  · cases v with
    | nan => exact absurd rfl hv
    | inf negative => cases negative <;> first | exact hw | rfl
    | fin a =>
      rw [max_fin, Above, Finite.val_max]
      exact le_max_of_le_right hb

/-- A product with a constant of at least one is as high. -/
theorem Above.scale (hx : 0 ≤ x) (h : v.Above x) (hk : 1 ≤ k) : (Value.scale k v).Above x := by
  rcases h.cases with rfl | ⟨a, rfl, ha⟩
  · rfl
  rcases (le_scale (hx.trans ha) hk).cases with hinf | ⟨b, hb, hle⟩
  · rw [hinf]
    rfl
  · rw [hb]
    exact ha.trans hle

/-- A positive constant over a value. -/
def quotient (k : ℚ) : Value → Value
  | nan => nan
  | inf _ => ofRat 0
  | fin a => if a.val = 0 then inf false else ofRat (k / a.val)

/-- The conversion to an `int64`, which drops the fraction. It is defined for what fits. -/
def toInt64 : Value → Option Int
  | fin a =>
    let n := if 0 ≤ a.val then ⌊a.val⌋ else ⌈a.val⌉
    if -9223372036854775808 ≤ n ∧ n < 9223372036854775808 then some n else none
  | _ => none

theorem nearest_mono (hx : 0 ≤ x) (h : x ≤ y) : nearest x ≤ nearest y := by
  rw [nearest_of_nonneg hx, nearest_of_nonneg (hx.trans h)]
  exact roundPos_mono hx h

theorem nearest_nonneg (hx : 0 ≤ x) : 0 ≤ nearest x := by
  rw [nearest_of_nonneg hx]
  exact roundPos_nonneg hx

/-- The conversion of what is not negative and not above something that fits. -/
theorem toInt64_ofRat {n : Int} (hx : 0 ≤ x) (h : x ≤ y) (hn : (ofRat y).toInt64 = some n) :
    ∃ m, (ofRat x).toInt64 = some m ∧ 0 ≤ m ∧ m ≤ n := by
  have hlow := nearest_nonneg hx
  have hle := nearest_mono hx h
  have hhigh := hlow.trans hle
  unfold ofRat at hn
  split at hn
  · next hfin =>
    simp only [toInt64, if_pos hhigh, Option.ite_none_right_eq_some] at hn
    obtain ⟨⟨-, hlt⟩, ⟨⟩⟩ := hn
    have hfin' : |nearest x| < 2 ^ 1024 := by
      rw [abs_of_nonneg hlow]
      rw [abs_of_nonneg hhigh] at hfin
      exact hle.trans_lt hfin
    have hfloor : ⌊nearest x⌋ ≤ ⌊nearest y⌋ := Int.floor_mono hle
    have hzero : 0 ≤ ⌊nearest x⌋ := Int.floor_nonneg.mpr hlow
    refine ⟨⌊nearest x⌋, ?_, hzero, hfloor⟩
    rw [ofRat, dif_pos hfin']
    simp only [toInt64, if_pos hlow]
    rw [if_pos ⟨by omega, by omega⟩]
  · cases hn

/-- The quotient by a value that is no smaller fits as well. -/
theorem toInt64_quotient {n : Int} (hk : 0 ≤ k) (ha : 0 < a.val)
    (hn : (quotient k (fin a)).toInt64 = some n) (hv : v.Above a.val) :
    ∃ m, (quotient k v).toInt64 = some m ∧ 0 ≤ m ∧ m ≤ n := by
  rw [quotient, if_neg ha.ne'] at hn
  cases v with
  | nan => exact absurd hv id
  | inf negative => exact toInt64_ofRat le_rfl (div_nonneg hk ha.le) hn
  | fin b =>
    have hb : 0 < b.val := lt_of_lt_of_le ha hv
    rw [quotient, if_neg hb.ne']
    exact toInt64_ofRat (div_nonneg hk hb.le) (div_le_div_of_nonneg_left hk ha hv) hn

end Value

end Binary64
