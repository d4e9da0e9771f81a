import Aquifer.Core.RetryAfter
import Aquifer.Lib.Binary64

/-! How long a session waits before it dials its upstream again. -/
namespace Aquifer.Websocket

variable {d n M overflow retryAfter : Int}

/-- What `retry.Jitter` adds at most: a tenth, as a product of `float64`s that is cut off. -/
def tenth (d : Int) : Int :=
  let ceiling := ⌊Binary64.nearest (Binary64.nearest d * Binary64.nearest (1 / 10))⌋
  if ceiling ≤ 0 then 1 else ceiling

/-- `retry.Jitter`, of whose tenth `draw` picks the part. -/
def jitter (d draw : Int) : Int :=
  if d ≤ 0 then d else int64 (d + draw % (tenth d + 1))

/-- The exponential of an attempt. The conversion of a power of two past the last `int64` gives what
the machine makes of it. -/
def exponential (overflow attempt : Int) : Int :=
  let power := 2 ^ (attempt - 1).toNat
  int64 ((if power < 9223372036854775808 then power else overflow) * second)

def reconnectBackoff (overflow attempt retryAfter maximum draw : Int) : Int :=
  let attempt := if attempt < 1 then 1 else attempt
  let backoff := exponential overflow attempt
  let backoff := if backoff < retryAfter then retryAfter else backoff
  let backoff := if 0 < maximum ∧ maximum < backoff then maximum else backoff
  jitter backoff draw

/-! ### One wait -/

/-- The product is a tenth, up to three roundings by a part in 2^53 at most. -/
theorem nearest_tenth_le (hd : 1 ≤ d) :
    Binary64.nearest (Binary64.nearest d * Binary64.nearest (1 / 10)) ≤
      (d : ℚ) / 10 + d / 2 ^ 54 := by
  have hd' : (1 : ℚ) ≤ d := by exact_mod_cast hd
  have htiny : (2 : ℚ) ^ (-1022 : ℤ) ≤ 1 / 16 := by
    rw [show (1 / 16 : ℚ) = 2 ^ (-4 : ℤ) by norm_num]
    exact zpow_le_zpow_right₀ one_le_two (by norm_num)
  have hlow : 1 ≤ Binary64.nearest d :=
    Binary64.le_nearest zero_le_one ⟨1, 0, by norm_num, by norm_num, by norm_num⟩ hd'
  have hlow' : 1 / 16 ≤ Binary64.nearest (1 / 10) :=
    Binary64.le_nearest (by norm_num) ⟨1, -4, by norm_num, by norm_num, by norm_num⟩ (by norm_num)
  have hhigh : Binary64.nearest d ≤ d * (1 + 1 / 2 ^ 53) :=
    Binary64.nearest_le (htiny.trans (by linarith))
  have hhigh' : Binary64.nearest (1 / 10) ≤ 1 / 10 * (1 + 1 / 2 ^ 53) :=
    Binary64.nearest_le (htiny.trans (by norm_num))
  have hproduct : 1 / 16 ≤ Binary64.nearest d * Binary64.nearest (1 / 10) :=
    hlow'.trans (le_mul_of_one_le_left (by linarith) hlow)
  have hcube : (1 + 1 / 2 ^ 53 : ℚ) * (1 + 1 / 2 ^ 53) * (1 + 1 / 2 ^ 53) ≤ 1 + 5 / 2 ^ 53 := by
    norm_num
  calc Binary64.nearest (Binary64.nearest d * Binary64.nearest (1 / 10))
      ≤ Binary64.nearest d * Binary64.nearest (1 / 10) * (1 + 1 / 2 ^ 53) :=
        Binary64.nearest_le (htiny.trans hproduct)
    _ ≤ d * (1 + 1 / 2 ^ 53) * (1 / 10 * (1 + 1 / 2 ^ 53)) * (1 + 1 / 2 ^ 53) := by gcongr
    _ = d / 10 * ((1 + 1 / 2 ^ 53) * (1 + 1 / 2 ^ 53) * (1 + 1 / 2 ^ 53)) := by ring
    _ ≤ d / 10 * (1 + 5 / 2 ^ 53) := by gcongr
    _ = d / 10 + d / 2 ^ 54 := by ring

theorem tenth_spec (hd : 1 ≤ d) : 1 ≤ tenth d ∧ tenth d ≤ d ∧
    (d ≤ 2 ^ 54 → 10 * tenth d ≤ d + 10) := by
  have hd' : (1 : ℚ) ≤ d := by exact_mod_cast hd
  have hfloor := (Int.floor_le _).trans (nearest_tenth_le hd)
  unfold tenth
  generalize ⌊Binary64.nearest (Binary64.nearest d * Binary64.nearest (1 / 10))⌋ = c at hfloor ⊢
  have hle : c ≤ d := by
    have : (c : ℚ) ≤ d := hfloor.trans (by linarith)
    exact_mod_cast this
  have hmost : d ≤ 2 ^ 54 → 10 * c ≤ d + 10 := by
    intro hsmall
    have hsmall' : (d : ℚ) ≤ 2 ^ 54 := by exact_mod_cast hsmall
    have : (10 * c : ℚ) ≤ d + 10 := by linarith
    exact_mod_cast this
  dsimp only
  split_ifs <;> omega

/-- The jitter stays between `d` and a tenth over `M` exactly if the most it adds does. -/
theorem jitter_between_iff (hd : 1 ≤ d) (hd' : d < 9223372036854775808) :
    (∀ draw, d ≤ jitter d draw ∧ 10 * jitter d draw ≤ 11 * M + 10) ↔
      d + tenth d < 9223372036854775808 ∧ 10 * (d + tenth d) ≤ 11 * M + 10 := by
  obtain ⟨hone, hle, -⟩ := tenth_spec hd
  have hjitter : ∀ draw, jitter d draw = int64 (d + draw % (tenth d + 1)) := fun draw =>
    if_neg (by omega)
  constructor
  · intro h
    have hmost := h (tenth d)
    rw [hjitter, Int.emod_eq_of_lt (by omega) (by omega)] at hmost
    have hfits : d + tenth d < 9223372036854775808 := by
      by_contra hover
      have := int64_le_of_over (n := d + tenth d) (by omega)
      omega
    rw [int64_of_range (by omega) hfits] at hmost
    exact ⟨hfits, hmost.2⟩
  · rintro ⟨hfits, hbound⟩ draw
    have hlow := Int.emod_nonneg draw (show tenth d + 1 ≠ 0 by omega)
    have hhigh := Int.emod_lt_of_pos draw (show 0 < tenth d + 1 by omega)
    rw [hjitter, int64_of_range (by omega) (by omega)]
    omega

/-- What is asked for: the exponential or the `Retry-After`, up to the maximum. -/
def asked (n retryAfter M : Int) : Int := min M (max (2 ^ (n - 1).toNat * second) retryAfter)

/-- The wrapped exponential asks for what the true one does, and the tenth of that neither overflows
nor passes the bound. -/
def Waits (overflow n retryAfter M : Int) : Prop :=
  (n ≤ 34 ∨ M ≤ retryAfter ∨ M ≤ exponential overflow n) ∧
    let d := asked n retryAfter M
    d + tenth d < 9223372036854775808 ∧ 10 * (d + tenth d) ≤ 11 * M + 10

theorem exponential_eq (hn : 1 ≤ n) (hn' : n ≤ 34) :
    exponential overflow n = 2 ^ (n - 1).toNat * second := by
  have hpower : (2 : Int) ^ (n - 1).toNat ≤ 2 ^ 33 := pow_le_pow_right₀ (by decide) (by omega)
  have hnonneg : (0 : Int) ≤ 2 ^ (n - 1).toNat := by positivity
  rw [exponential, if_pos (by omega)]
  refine int64_of_range ?_ ?_ <;> rw [second] <;> omega

theorem asked_pos (hM : 0 < M) : 1 ≤ asked n retryAfter M := by
  have hpower : (0 : Int) < 2 ^ (n - 1).toNat := by positivity
  rw [asked, second]
  omega

/-- From the 35th attempt on the exponential is past every maximum. -/
theorem asked_of_late (hn : 35 ≤ n) (hM : M < 9223372036854775808) : asked n retryAfter M = M := by
  have hpower : (2 : Int) ^ 34 ≤ 2 ^ (n - 1).toNat := pow_le_pow_right₀ (by decide) (by omega)
  rw [asked, second]
  omega

theorem reconnectBackoff_eq (hn : 1 ≤ n) (hM : 0 < M) (draw : Int) :
    reconnectBackoff overflow n retryAfter M draw =
      jitter (min M (max (exponential overflow n) retryAfter)) draw := by
  have hlater : ∀ a b : Int, (if a < b then b else a) = max a b := by
    intro a b
    split_ifs <;> omega
  have hcapped : ∀ a : Int, (if 0 < M ∧ M < a then M else a) = min M a := by
    intro a
    split_ifs <;> omega
  rw [reconnectBackoff, if_neg (show ¬ n < 1 by omega), hlater, hcapped]

/-- The wait before the jitter is what is asked for, where the wrapped exponential is. -/
theorem backoff_eq_asked (hn : 1 ≤ n) (hM : M < 9223372036854775808)
    (h : n ≤ 34 ∨ M ≤ retryAfter ∨ M ≤ exponential overflow n) :
    min M (max (exponential overflow n) retryAfter) = asked n retryAfter M := by
  by_cases hearly : n ≤ 34
  · rw [exponential_eq hn hearly, asked]
  · rw [asked_of_late (by omega) hM]
    omega

theorem reconnectBackoff_iff (hn : 1 ≤ n) (hM : 0 < M) (hM' : M < 9223372036854775808) :
    (∀ draw, asked n retryAfter M ≤ reconnectBackoff overflow n retryAfter M draw ∧
      10 * reconnectBackoff overflow n retryAfter M draw ≤ 11 * M + 10) ↔
      Waits overflow n retryAfter M := by
  have hpos : 1 ≤ asked n retryAfter M := asked_pos hM
  have hle : asked n retryAfter M ≤ M := Int.min_le_left _ _
  simp only [reconnectBackoff_eq hn hM]
  constructor
  · intro h
    -- without jitter the wait is the one before it
    have hreach : n ≤ 34 ∨ M ≤ retryAfter ∨ M ≤ exponential overflow n := by
      have hnone := (h 0).1
      by_contra hshort
      rw [asked_of_late (by omega) hM', jitter, Int.zero_emod] at hnone
      split_ifs at hnone
      · omega
      · rw [int64_of_range (by omega) (by omega)] at hnone
        omega
    rw [backoff_eq_asked hn hM' hreach] at h
    exact ⟨hreach, (jitter_between_iff hpos (hle.trans_lt hM')).mp h⟩
  · rintro ⟨hreach, htenth⟩
    rw [backoff_eq_asked hn hM' hreach]
    exact (jitter_between_iff hpos (hle.trans_lt hM')).mpr htenth

theorem exponential_of_past (hn : 64 ≤ n) : exponential overflow n = int64 (overflow * second) := by
  have hpower : (2 : Int) ^ 63 ≤ 2 ^ (n - 1).toNat := pow_le_pow_right₀ (by decide) (by omega)
  rw [exponential, if_neg (by omega)]

/-- The attempts past the 34th whose exponential wraps to a positive number. -/
def positiveWraps : List Int := [38, 42, 43, 46, 48, 51, 52, 54]

theorem exponential_wraps (overflow : Int) (hn : 35 ≤ n) (hn' : n ≤ 63) :
    if n ∈ positiveWraps then 2 ^ 61 ≤ exponential overflow n else exponential overflow n ≤ 0 := by
  have hall : ∀ k < 29, if ((35 + k : Nat) : Int) ∈ positiveWraps
      then 2 ^ 61 ≤ int64 (2 ^ (34 + k) * second) else int64 (2 ^ (34 + k) * second) ≤ 0 := by
    decide
  have hk := hall (n - 35).toNat (by omega)
  have hpower : (2 : Int) ^ (n - 1).toNat < 9223372036854775808 :=
    (pow_le_pow_right₀ (by decide) (show (n - 1).toNat ≤ 62 by omega)).trans_lt (by decide)
  rw [show ((35 + (n - 35).toNat : Nat) : Int) = n by omega,
    show 34 + (n - 35).toNat = (n - 1).toNat by omega] at hk
  rwa [exponential, if_pos hpower]

/-- The tenth of what is at most 2^54 fits, so there only the exponential decides. -/
theorem waits_iff (hM : 0 < M) (hsmall : M ≤ 2 ^ 54) :
    Waits overflow n retryAfter M ↔ n ≤ 34 ∨ M ≤ retryAfter ∨ n ∈ positiveWraps ∨
      64 ≤ n ∧ M ≤ int64 (overflow * second) := by
  have hle : asked n retryAfter M ≤ M := Int.min_le_left _ _
  obtain ⟨-, -, htenth⟩ := tenth_spec (asked_pos hM : 1 ≤ asked n retryAfter M)
  have htenth := htenth (by omega)
  have hwrap : 35 ≤ n → (M ≤ exponential overflow n ↔
      n ∈ positiveWraps ∨ 64 ≤ n ∧ M ≤ int64 (overflow * second)) := by
    intro hlate
    by_cases hmachine : 64 ≤ n
    · have hnot : n ∉ positiveWraps := by
        simp [positiveWraps]
        omega
      simp [exponential_of_past hmachine, hmachine, hnot]
    · have := exponential_wraps overflow hlate (by omega)
      split_ifs at this with hmem
      · exact iff_of_true (by omega) (.inl hmem)
      · exact iff_of_false (by omega) (by simp [hmem, hmachine])
  unfold Waits
  rw [and_iff_left ⟨by omega, by omega⟩]
  by_cases hearly : n ≤ 34
  · simp [hearly]
  · rw [hwrap (by omega)]

theorem reconnectBackoff_eq_zero (hlate : 35 ≤ n) (hwrap : n ∉ positiveWraps)
    (hmachine : n ≤ 63 ∨ int64 (overflow * second) ≤ 0) (hM : 0 < M) (draw : Int) :
    reconnectBackoff overflow n 0 M draw = 0 := by
  have hnone : exponential overflow n ≤ 0 := by
    by_cases hpast : 64 ≤ n
    · rw [exponential_of_past hpast]
      omega
    · have := exponential_wraps overflow hlate (by omega)
      rwa [if_neg hwrap] at this
  rw [reconnectBackoff_eq (by omega) hM, show min M (max (exponential overflow n) 0) = 0 by omega]
  rfl

/-! ### The loop -/

/-- How one pass of `connectUpstream`'s loop goes: the session ends, with an error or its context;
or the dial fails, with the seconds of a `Retry-After` that is a number; or a connection was made
and is lost. The draw is that of the wait's jitter. -/
inductive Pass
  | ended
  | refused (retryAfter : Option Int) (draw : Int)
  | lost (draw : Int)
deriving DecidableEq, Repr

def Pass.isRefused : Pass → Bool
  | .refused _ _ => true
  | _ => false

/-- The loop between two passes, and its waits so far. -/
structure Upstream where
  attempt : Nat := 0
  running : Bool := true
  waits : List Int := []
deriving DecidableEq, Repr

/-- The result of `applyCapacityHeaders`. -/
def retryAfterHeader : Option Int → Int
  | some seconds => if 0 < seconds then int64 (seconds * second) else 0
  | none => 0

def Upstream.step (overflow maximum : Int) (s : Upstream) : Pass → Option Upstream
  | .ended => if s.running then some { s with running := false } else none
  | .refused retryAfter draw =>
    if s.running then
      some { s with
        attempt := s.attempt + 1
        waits := s.waits ++ [reconnectBackoff overflow (s.attempt + 1 : Nat)
          (retryAfterHeader retryAfter) maximum draw] }
    else none
  -- the attempts are counted again from the connection on
  | .lost draw =>
    if s.running then
      some { s with
        attempt := 1
        waits := s.waits ++ [reconnectBackoff overflow 1 0 maximum draw] }
    else none

/-- The waits of an outage, the first of them after `attempt` failures before. -/
structure Outage (M : Int) (attempt : Nat) (waits : List Int) : Prop where
  reached : ∀ i w, waits[i]? = some w → M ≤ 2 ^ (attempt + i) * second → M ≤ w
  bounded : ∀ w ∈ waits, 10 * w ≤ 11 * M + 10

theorem Outage.cons {attempt : Nat} {w : Int} {waits : List Int} (h : Outage M (attempt + 1) waits)
    (hlow : min M (2 ^ attempt * second) ≤ w) (hhigh : 10 * w ≤ 11 * M + 10) :
    Outage M attempt (w :: waits) := by
  refine ⟨fun i x hx hreach => ?_, List.forall_mem_cons.mpr ⟨hhigh, h.bounded⟩⟩
  cases i with
  | zero =>
    obtain rfl : w = x := by simpa using hx
    rw [Nat.add_zero] at hreach
    omega
  | succ i =>
    refine h.reached i x (by simpa using hx) ?_
    rwa [Nat.add_right_comm, Nat.add_assoc]

/-- The failures of the run, counted on from `attempt`, all wait. -/
def AllWait (overflow M : Int) (attempt : Nat) (es : List Pass) : Prop :=
  ∀ i retryAfter draw, es[i]? = some (.refused retryAfter draw) →
    Waits overflow ((attempt + i + 1 : Nat) : Int) (retryAfterHeader retryAfter) M

/-- An outage is waited out as long as its failures wait. -/
theorem outage_of_run (hM : 0 < M) (hM' : M < 9223372036854775808) {s t : Upstream}
    {es : List Pass} (hrun : Trace.exec (Upstream.step overflow M) s es = some t)
    (hdead : ∀ e ∈ es, e.isRefused = true) (hwait : AllWait overflow M s.attempt es) :
    ∃ waits, t.waits = s.waits ++ waits ∧ waits.length = es.length ∧ Outage M s.attempt waits := by
  induction es generalizing s with
  | nil =>
    cases hrun
    exact ⟨[], by simp, rfl, by simp, by simp⟩
  | cons e es ih =>
    obtain ⟨u, hstep, hrest⟩ := Trace.exec_cons.mp hrun
    obtain ⟨he, hes⟩ := List.forall_mem_cons.mp hdead
    cases e with
    | ended | lost => cases he
    | refused retryAfter draw =>
      obtain ⟨-, ⟨⟩⟩ := Option.ite_none_right_eq_some.mp hstep
      have hlater : AllWait overflow M (s.attempt + 1) es := by
        intro i retryAfter draw hi
        have := hwait (i + 1) retryAfter draw (by simpa using hi)
        rwa [show s.attempt + (i + 1) + 1 = s.attempt + 1 + i + 1 by omega] at this
      obtain ⟨waits, hwaits, hlen, hout⟩ := ih hrest hes hlater
      obtain ⟨hlow, hhigh⟩ :=
        (reconnectBackoff_iff (by omega) hM hM').mpr (hwait 0 retryAfter draw rfl) draw
      refine ⟨_ :: waits, ?_, by rw [List.length_cons, hlen, List.length_cons], hout.cons ?_ hhigh⟩
      · rw [hwaits, List.append_assoc, List.singleton_append]
      · have hexp : (((s.attempt + 0 + 1 : Nat) : Int) - 1).toNat = s.attempt := by omega
        rw [asked, hexp] at hlow
        exact (by omega : min M (2 ^ s.attempt * second) ≤ _).trans hlow

/-- For every jitter a wait is what is asked for, up to the maximum, or more, and at most a tenth
and a nanosecond over the maximum, exactly where the wrapped exponential or the `Retry-After` gives
what is asked for and the tenth of it fits. Up to a maximum of two hundred days the tenth fits, and
these are the first 34 attempts, eight later ones, those with a `Retry-After` of the maximum or
more, and what the machine makes of a power past the last `int64`; at the others there is no wait
without a `Retry-After`. So the waits of an outage reach the maximum with the exponential. -/
theorem reconnect_keeps_waiting (overflow M : Int) (hM : 0 < M) (hM' : M < 9223372036854775808) :
    (∀ n retryAfter, 1 ≤ n →
      ((∀ draw, min M (max (2 ^ (n - 1).toNat * second) retryAfter) ≤
          reconnectBackoff overflow n retryAfter M draw ∧
        10 * reconnectBackoff overflow n retryAfter M draw ≤ 11 * M + 10) ↔
        Waits overflow n retryAfter M) ∧
      (M ≤ 2 ^ 54 → (Waits overflow n retryAfter M ↔
        n ≤ 34 ∨ M ≤ retryAfter ∨ n ∈ positiveWraps ∨ 64 ≤ n ∧ M ≤ int64 (overflow * second))) ∧
      (35 ≤ n → n ∉ positiveWraps → n ≤ 63 ∨ int64 (overflow * second) ≤ 0 →
        ∀ draw, reconnectBackoff overflow n 0 M draw = 0)) ∧
    ∀ (s t : Upstream) (es : List Pass), Trace.exec (Upstream.step overflow M) s es = some t →
      (∀ e ∈ es, e.isRefused = true) → AllWait overflow M s.attempt es →
      ∃ waits, t.waits = s.waits ++ waits ∧ waits.length = es.length ∧
        (∀ i w, waits[i]? = some w → M ≤ 2 ^ (s.attempt + i) * second → M ≤ w) ∧
        ∀ w ∈ waits, 10 * w ≤ 11 * M + 10 := by
  refine ⟨fun n retryAfter hn => ⟨reconnectBackoff_iff hn hM hM', ?_, ?_⟩, ?_⟩
  · exact fun hsmall => waits_iff hM hsmall
  · exact fun hlate hwrap hmachine draw => reconnectBackoff_eq_zero hlate hwrap hmachine hM draw
  · intro s t es hrun hdead hwait
    obtain ⟨waits, hwaits, hlen, hout⟩ := outage_of_run hM hM' hrun hdead hwait
    exact ⟨waits, hwaits, hlen, hout.reached, hout.bounded⟩

/-- `defaultWebSocketReconnectMax`. -/
def defaultReconnectMax : Int := 30 * second

/-- So many dials in a row that fail, with no `Retry-After`. -/
def outage (n : Nat) : List Pass := List.replicate n (.refused none 0)

/-- 34 failures in a row: the sixth wait and those after it are of thirty seconds at least. -/
theorem reconnect_keeps_waiting_thirty_seconds :
    defaultReconnectMax ≤ reconnectBackoff 0 34 0 defaultReconnectMax 0 ∧
    ∃ t, Trace.exec (Upstream.step 0 defaultReconnectMax) {} (outage 34) = some t ∧
      t.waits.length = 34 ∧ ∀ i w, t.waits[i]? = some w → 5 ≤ i → defaultReconnectMax ≤ w := by
  obtain ⟨hone, hloop⟩ := reconnect_keeps_waiting 0 defaultReconnectMax (by decide) (by decide)
  have hwaits : ∀ n retryAfter, 1 ≤ n → n ≤ 34 → Waits 0 n retryAfter defaultReconnectMax :=
    fun n retryAfter hn hn' => ((hone n retryAfter hn).2.1 (by decide)).mpr (.inl hn')
  refine ⟨le_trans (by decide) (((hone 34 0 (by decide)).1.mpr
    (hwaits 34 0 (by decide) (by decide))) 0).1, ?_⟩
  have hdefined : (Trace.exec (Upstream.step 0 defaultReconnectMax) {} (outage 34)).isSome := by
    decide +kernel
  obtain ⟨t, ht⟩ := Option.isSome_iff_exists.mp hdefined
  obtain ⟨_, rfl, hlen, hreach, -⟩ := hloop {} t (outage 34) ht (by decide) fun i _ _ hi => by
    have hlt := (List.getElem?_eq_some_iff.mp hi).1
    rw [outage, List.length_replicate] at hlt
    exact hwaits _ _ (by omega) (by show ((0 + i + 1 : Nat) : Int) ≤ 34; omega)
  refine ⟨t, ht, hlen, fun i w hw hi => hreach i w hw ?_⟩
  calc defaultReconnectMax ≤ 2 ^ 5 * second := by decide
    _ ≤ 2 ^ (0 + i) * second :=
      Int.mul_le_mul_of_nonneg_right (pow_le_pow_right₀ (by decide) (by omega)) (by decide)

/-- After the 34th failure there is no wait: the seconds overflow, and whatever the machine makes of
a power of two past the last `int64` leaves it so. Near the largest maximum the jitter overflows
too, and past 2^55 it is more than a tenth. -/
theorem reconnect_stops_waiting :
    (Trace.exec (Upstream.step 0 defaultReconnectMax) {} (outage 36)).map (·.waits.drop 33) =
      some [defaultReconnectMax, 0, 0] ∧
    (∀ n ∈ [56, 57, 58, 59, 60, 61, 62, 63], reconnectBackoff 0 n 0 defaultReconnectMax 0 = 0) ∧
    reconnectBackoff (-9223372036854775808) 64 0 defaultReconnectMax 0 = 0 ∧
    reconnectBackoff 9223372036854775807 64 0 defaultReconnectMax 0 = 0 ∧
    reconnectBackoff 0 34 0 9223372036854775807 858993459200000000 < 0 ∧
    11 * 55518134021293628 + 10 <
      10 * reconnectBackoff 0 34 0 55518134021293628 5551813402129364 := by
  decide +kernel

end Aquifer.Websocket
