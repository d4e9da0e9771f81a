import Aquifer.Dispatch.Pace
import Aquifer.Lib.Binary64

/-! The pace of a queue in the numbers the run loop computes with. -/
namespace Aquifer

open Binary64 (Value Finite)

/-- A completion as the pace update reads it: whether the attempt failed, and what the rate header
of the response parsed to. -/
structure FloatPace.Msg where
  failed : Bool
  rps : Option Value
deriving DecidableEq

namespace FloatPace

def floor : Finite where
  val := minRPS
  rep := ⟨1, -1, by norm_num, by norm_num, by norm_num [minRPS]⟩
  bounded := by
    have hone : (1 : ℚ) ≤ 2 ^ 1024 := one_le_pow₀ one_le_two
    exact lt_of_lt_of_le (by norm_num [minRPS]) hone

def creep : ℚ := Binary64.nearest (105 / 100)

def start (configuredRPS : Value) (slowStart : Bool) : Value :=
  if slowStart then .fin floor else configuredRPS

def update (configuredRPS rps : Value) (m : Msg) : Value :=
  if m.failed then
    let next := rps.scale (1 / 2)
    let next := match m.rps with
      | some r => next.min r
      | none => next
    next.max (.fin floor)
  else
    match m.rps with
    | some r => (r.min configuredRPS).max (.fin floor)
    | none =>
      if rps.lt configuredRPS then (rps.scale creep).min configuredRPS else rps

def rate (configuredRPS : Value) (slowStart : Bool) (ms : List Msg) : Value :=
  ms.foldl (update configuredRPS) (start configuredRPS slowStart)

variable {c r : Finite} {m : Msg}

/-- The constant is a little more than 1.05. -/
theorem one_le_creep : 1 ≤ creep := by decide +kernel

theorem half_spec (hfloor : minRPS ≤ r.val) :
    ∃ h, Value.scale (1 / 2) (.fin r) = .fin h ∧ h.val = r.val / 2 := by
  refine Value.scale_half (le_trans ?_ hfloor)
  rw [minRPS, one_div, ← zpow_neg_one]
  exact zpow_le_zpow_right₀ one_le_two (by norm_num)

theorem update_failed (hfloor : minRPS ≤ r.val) (hm : m.rps ≠ some .nan)
    (hfailed : m.failed = true) :
    ∃ y, update (.fin c) (.fin r) m = .fin y ∧ minRPS ≤ y.val ∧ y.val ≤ max (r.val / 2) minRPS := by
  obtain ⟨h, hhalf, hval⟩ := half_spec hfloor
  have hbelow : (Value.fin h).Below (max (r.val / 2) minRPS) := hval.le.trans (le_max_left _ _)
  rw [update, if_pos hfailed, hhalf]
  cases hrps : m.rps with
  | none => exact hbelow.max_fin (le_max_right _ _)
  | some v =>
    have hv : v ≠ .nan := fun hnan => hm (hrps.trans (hnan ▸ rfl))
    exact (hbelow.min_left hv).max_fin (le_max_right _ _)

theorem update_advertised {v : Value} (hc : minRPS ≤ c.val) (hv : v ≠ .nan) (hrps : m.rps = some v)
    (hok : m.failed = false) :
    ∃ y, update (.fin c) (.fin r) m = .fin y ∧ minRPS ≤ y.val ∧ y.val ≤ c.val ∧
      ∀ x, v = .fin x → y.val ≤ max x.val minRPS := by
  have hbelow : (Value.fin c).Below c.val := le_rfl
  obtain ⟨y, hy, hlow, hhigh⟩ := (hbelow.min_right hv).max_fin (a := floor) hc
  refine ⟨y, ?_, hlow, hhigh, fun x hx => ?_⟩
  · rw [update, if_neg (by simp [hok]), hrps]
    exact hy
  · subst hx
    have hmost : (Value.fin x).Below (max x.val minRPS) := le_max_left _ _
    obtain ⟨y', hy', -, hle⟩ := (hmost.min_left (w := .fin c) (by simp)).max_fin (a := floor)
      (le_max_right _ _)
    obtain rfl : y = y' := by simpa using hy.symm.trans hy'
    exact hle

theorem update_creep (hfloor : minRPS ≤ r.val) (hceil : r.val ≤ c.val) (hrps : m.rps = none)
    (hok : m.failed = false) :
    ∃ y, update (.fin c) (.fin r) m = .fin y ∧ minRPS ≤ y.val ∧ y.val ≤ c.val := by
  rw [update, if_neg (by simp [hok]), hrps]
  dsimp only
  split_ifs
  · have hpos : 0 ≤ r.val := Pace.minRPS_pos.le.trans hfloor
    obtain ⟨y, hy, hlow, hhigh⟩ := (Value.le_scale hpos one_le_creep).min_fin hceil
    exact ⟨y, hy, hfloor.trans hlow, hhigh⟩
  · exact ⟨r, rfl, hfloor, hceil⟩

/-- What one message does to a pace within its limits. -/
structure Bounded (c r : Finite) (m : Msg) (y : Finite) : Prop where
  floor : minRPS ≤ y.val
  ceiling : y.val ≤ c.val
  failed : m.failed = true → y.val ≤ r.val ∧ y.val ≤ max (r.val / 2) minRPS
  advertised : m.failed = false → ∀ x, m.rps = some (.fin x) → y.val ≤ max x.val minRPS

theorem update_bounded (hfloor : minRPS ≤ r.val) (hceil : r.val ≤ c.val)
    (hm : m.rps ≠ some .nan) : ∃ y, update (.fin c) (.fin r) m = .fin y ∧ Bounded c r m y := by
  cases hfailed : m.failed with
  | true =>
    obtain ⟨y, hy, hlow, hhalf⟩ := update_failed (c := c) hfloor hm hfailed
    have hless : max (r.val / 2) minRPS ≤ r.val := by
      have := Pace.minRPS_pos
      exact max_le (by linarith) hfloor
    have hle : y.val ≤ r.val := hhalf.trans hless
    refine ⟨y, hy, hlow, hle.trans hceil, fun _ => ⟨hle, hhalf⟩, fun hok => ?_⟩
    exact absurd (hfailed ▸ hok) (by simp)
  | false =>
    have hno : ∀ {p : Prop}, m.failed = true → p := fun h => absurd (hfailed ▸ h) (by simp)
    cases hrps : m.rps with
    | none =>
      obtain ⟨y, hy, hlow, hhigh⟩ := update_creep hfloor hceil hrps hfailed
      exact ⟨y, hy, hlow, hhigh, hno, fun _ x hx => absurd (hrps ▸ hx) (by simp)⟩
    | some v =>
      have hv : v ≠ .nan := fun hnan => hm (hrps.trans (hnan ▸ rfl))
      obtain ⟨y, hy, hlow, hhigh, hmost⟩ :=
        update_advertised (r := r) (hfloor.trans hceil) hv hrps hfailed
      exact ⟨y, hy, hlow, hhigh, hno, fun _ x hx => hmost x (Option.some.inj (hrps.symm.trans hx))⟩

/-- On a failure or an advertised number it is the update of exact numbers. -/
theorem update_eq_exact (hfloor : minRPS ≤ r.val) {failed : Bool} {rps : Option Finite}
    (h : failed = true ∨ rps.isSome = true) :
    ∃ y, update (.fin c) (.fin r) ⟨failed, rps.map .fin⟩ = .fin y ∧
      y.val =
        Pace.update { configuredRPS := c.val } r.val (.completion failed (rps.map Finite.val)) := by
  obtain ⟨half, hhalf, hval⟩ := half_spec hfloor
  cases failed with
  | true =>
    rw [update, if_pos rfl, hhalf]
    cases rps with
    | none =>
      refine ⟨half.max floor, rfl, ?_⟩
      rw [Finite.val_max, hval]
      rfl
    | some x =>
      refine ⟨(half.min x).max floor, rfl, ?_⟩
      rw [Finite.val_max, Finite.val_min, hval]
      rfl
  | false =>
    obtain ⟨x, rfl⟩ := Option.isSome_iff_exists.mp (h.resolve_left (by simp))
    refine ⟨(x.min c).max floor, rfl, ?_⟩
    rw [Finite.val_max, Finite.val_min]
    rfl

/-- Under a configured rate of at least `MinRPS` and as long as no header is NaN, the pace is a
number between the two after every sequence of messages. A failed message never raises it and leaves
no more than half of it or `MinRPS`, and an advertised number bounds it. -/
theorem pace_stays_within_limits (c : Finite) (hc : minRPS ≤ c.val) (slowStart : Bool)
    (ms : List Msg) (hms : ∀ m ∈ ms, m.rps ≠ some .nan) :
    ∃ r, rate (.fin c) slowStart ms = .fin r ∧ 0 < r.val ∧ minRPS ≤ r.val ∧ r.val ≤ c.val ∧
      ∀ m, m.rps ≠ some .nan → ∃ y, update (.fin c) (.fin r) m = .fin y ∧
        (m.failed = true → y.val ≤ r.val ∧ y.val ≤ max (r.val / 2) minRPS) ∧
        (m.failed = false → ∀ x, m.rps = some (.fin x) → y.val ≤ max x.val minRPS) := by
  have hrun : ∀ r₀ : Finite, minRPS ≤ r₀.val → r₀.val ≤ c.val →
      ∃ r, ms.foldl (update (.fin c)) (.fin r₀) = .fin r ∧ minRPS ≤ r.val ∧ r.val ≤ c.val := by
    induction ms with
    | nil => exact fun r₀ hlow hhigh => ⟨r₀, rfl, hlow, hhigh⟩
    | cons m ms ih =>
      intro r₀ hlow hhigh
      obtain ⟨hm, hrest⟩ := List.forall_mem_cons.mp hms
      obtain ⟨y, hy, hb⟩ := update_bounded hlow hhigh hm
      rw [List.foldl_cons, hy]
      exact ih hrest y hb.floor hb.ceiling
  have hstart : ∃ r₀, start (.fin c) slowStart = .fin r₀ ∧ minRPS ≤ r₀.val ∧ r₀.val ≤ c.val := by
    cases slowStart with
    | true => exact ⟨floor, rfl, le_rfl, hc⟩
    | false => exact ⟨c, rfl, hc, le_rfl⟩
  obtain ⟨r₀, hr₀, hlow₀, hhigh₀⟩ := hstart
  obtain ⟨r, hr, hlow, hhigh⟩ := hrun r₀ hlow₀ hhigh₀
  refine ⟨r, ?_, Pace.minRPS_pos.trans_le hlow, hlow, hhigh, fun m hm => ?_⟩
  · rw [rate, hr₀, hr]
  · obtain ⟨y, hy, hb⟩ := update_bounded hlow hhigh hm
    exact ⟨y, hy, hb.failed, hb.advertised⟩

/-- Two requests a second, and one in four seconds. -/
def two : Finite where
  val := 2
  rep := ⟨1, 1, by norm_num, by norm_num, by norm_num⟩
  bounded := by
    have hpow : (2 : ℚ) ^ 2 ≤ 2 ^ 1024 := pow_le_pow_right₀ one_le_two (by norm_num)
    exact lt_of_lt_of_le (by norm_num) hpow

def quarter : Finite where
  val := 1 / 4
  rep := ⟨1, -2, by norm_num, by norm_num, by norm_num⟩
  bounded := by
    have hone : (1 : ℚ) ≤ 2 ^ 1024 := one_le_pow₀ one_le_two
    exact lt_of_lt_of_le (by norm_num) hone

theorem pace_of_two_within_limits :
    ∃ r, rate (.fin two) true [⟨true, none⟩, ⟨false, some (.inf false)⟩, ⟨false, none⟩] = .fin r ∧
      0 < r.val ∧ r.val ≤ 2 := by
  have htwo : minRPS ≤ two.val := by norm_num [minRPS, two]
  obtain ⟨r, hr, hpos, -, hle, -⟩ := pace_stays_within_limits two htwo true
    [⟨true, none⟩, ⟨false, some (.inf false)⟩, ⟨false, none⟩] (by decide)
  exact ⟨r, hr, hpos, hle⟩

/-- A configured rate below `MinRPS` is exceeded by a slow start, and by a failure, which raises the
pace. A NaN in one header is the pace until a later one has a number, through failures too. An
infinite rate is the pace from the start. -/
theorem pace_leaves_limits :
    (rate (.fin quarter) true [] = .fin floor ∧ quarter.val < floor.val) ∧
    (rate (.fin quarter) false [] = .fin quarter ∧
      rate (.fin quarter) false [⟨true, none⟩] = .fin floor) ∧
    (rate (.fin two) false [⟨false, some .nan⟩] = .nan ∧
      rate (.fin two) false [⟨false, some .nan⟩, ⟨false, none⟩, ⟨true, none⟩] = .nan) ∧
    rate (.inf false) false [] = .inf false := by
  decide +kernel

end FloatPace

end Aquifer
