import Mathlib.Logic.Equiv.Basic
import Mathlib.Order.Lattice

/-! Binary min-heaps over a collection that offers a length, a key for each slot and a swap of two
slots, with the loops of Go's `container/heap`. -/
namespace Heap

universe u v

/-- A collection with numbered slots. -/
structure Interface (σ : Type u) (κ : Type v) where
  len : σ → Nat
  key : σ → Nat → κ
  swap : σ → Nat → Nat → σ
  len_swap : ∀ {s i j}, len (swap s i j) = len s
  key_swap : ∀ {s i j k}, i < len s → j < len s → k < len s →
    key (swap s i j) k = key s (Equiv.swap i j k)

def parent (j : Nat) : Nat := (j - 1) / 2

theorem parent_lt {j : Nat} (h : 0 < j) : parent j < j := by
  unfold parent
  omega

variable {σ : Type u} {κ : Type v} {I : Interface σ κ} {s : σ} {n i j k : Nat}

theorem key_swap_left (hi : i < I.len s) (hj : j < I.len s) :
    I.key (I.swap s i j) i = I.key s j := by
  rw [I.key_swap hi hj hi, Equiv.swap_apply_left]

theorem key_swap_right (hi : i < I.len s) (hj : j < I.len s) :
    I.key (I.swap s i j) j = I.key s i := by
  rw [I.key_swap hi hj hj, Equiv.swap_apply_right]

theorem key_swap_other (hi : i < I.len s) (hj : j < I.len s) (hk : k < I.len s) (hki : k ≠ i)
    (hkj : k ≠ j) : I.key (I.swap s i j) k = I.key s k := by
  rw [I.key_swap hi hj hk, Equiv.swap_apply_of_ne_of_ne hki hkj]

variable [LinearOrder κ] (I)

/-- The loop of `up`; `fuel` bounds its rounds. -/
def upFrom : Nat → σ → Nat → σ
  | 0, s, _ => s
  | fuel + 1, s, j =>
    if parent j = j ∨ ¬I.key s j < I.key s (parent j) then s
    else upFrom fuel (I.swap s (parent j) j) (parent j)

/-- Every round goes to a smaller index, so `j` rounds are enough. -/
def up (s : σ) (j : Nat) : σ := upFrom I j s j

/-- The smaller of the children of `i` below `n`, the left one if they are level. -/
def child (s : σ) (i n : Nat) : Nat :=
  if 2 * i + 2 < n ∧ I.key s (2 * i + 2) < I.key s (2 * i + 1) then 2 * i + 2 else 2 * i + 1

/-- The loop of `down`, with the slot it ends at. -/
def downFrom : Nat → σ → Nat → Nat → σ × Nat
  | 0, s, i, _ => (s, i)
  | fuel + 1, s, i, n =>
    if n ≤ 2 * i + 1 then (s, i)
    else if ¬I.key s (child I s i n) < I.key s i then (s, i)
    else downFrom fuel (I.swap s i (child I s i n)) (child I s i n) n

/-- `down`, and whether it moved the entry. -/
def down (s : σ) (i n : Nat) : σ × Bool :=
  let r := downFrom I n s i n
  (r.1, decide (i < r.2))

/-- What `Fix` does once the key of slot `i` has changed, within the first `n` slots. -/
def fixWithin (s : σ) (i n : Nat) : σ :=
  let r := down I s i n
  if r.2 then r.1 else up I r.1 i

def fix (s : σ) (i : Nat) : σ := fixWithin I s i (I.len s)

/-- `Remove` up to the `Pop` of the last slot, which then holds the entry to be removed. -/
def toLast (s : σ) (i : Nat) : σ :=
  let n := I.len s - 1
  if n = i then s else fixWithin I (I.swap s i n) i n

/-- No slot below `n` has a smaller key than its parent. -/
def Ordered (s : σ) (n : Nat) : Prop := ∀ j, 0 < j → j < n → I.key s (parent j) ≤ I.key s j

/-- The slots below `n` are in order around slot `i`, whatever its key. -/
structure Around (s : σ) (n i : Nat) : Prop where
  off : ∀ j, 0 < j → j < n → j ≠ i → parent j ≠ i → I.key s (parent j) ≤ I.key s j
  across : ∀ j, 0 < j → j < n → parent j = i → 0 < i → I.key s (parent i) ≤ I.key s j

/-- No child of slot `i` has a smaller key. -/
def Below (s : σ) (n i : Nat) : Prop := ∀ j, 0 < j → j < n → parent j = i → I.key s i ≤ I.key s j

variable {I}

theorem root_le (h : Ordered I s n) (hk : k < n) : I.key s 0 ≤ I.key s k := by
  induction k using Nat.strongRecOn with
  | ind k ih =>
    rcases Nat.eq_zero_or_pos k with rfl | hpos
    · exact le_rfl
    · have hlt := parent_lt hpos
      exact (ih (parent k) hlt (by omega)).trans (h k hpos hk)

theorem around_last (h : Around I s n i) (hn : n ≤ i) : Ordered I s n := by
  intro j hpos hj
  have hlt := parent_lt hpos
  exact h.off j hpos hj (by omega) (by omega)

/-- A round of `up` that moves the entry leaves the slots in order around the parent. -/
theorem up_step (hn : n ≤ I.len s) (hj : j < n) (hpos : 0 < j) (h : Around I s n j)
    (hless : I.key s j < I.key s (parent j)) :
    Around I (I.swap s (parent j) j) n (parent j) ∧
    Below I (I.swap s (parent j) j) n (parent j) := by
  have hlt := parent_lt hpos
  have hp : parent j < I.len s := by omega
  have hj' : j < I.len s := by omega
  have hparent : I.key (I.swap s (parent j) j) (parent j) = I.key s j := key_swap_left hp hj'
  have hmoved : I.key (I.swap s (parent j) j) j = I.key s (parent j) := key_swap_right hp hj'
  have hother : ∀ k, k < n → k ≠ parent j → k ≠ j →
      I.key (I.swap s (parent j) j) k = I.key s k := fun k hk => key_swap_other hp hj' (by omega)
  refine ⟨⟨?_, ?_⟩, ?_⟩
  · intro c hc hcn hcp hpc
    have hcj : c ≠ j := fun h => hpc (by rw [h])
    have hpclt := parent_lt hc
    rw [hother c hcn hcp hcj]
    by_cases hcj' : parent c = j
    · rw [hcj', hmoved]
      exact h.across c hc hcn hcj' hpos
    · rw [hother (parent c) (by omega) hpc hcj']
      exact h.off c hc hcn hcj hcj'
  · intro c hc hcn hpc hp0
    have hpp := parent_lt hp0
    have hup : I.key s (parent (parent j)) ≤ I.key s (parent j) :=
      h.off (parent j) hp0 (by omega) (by omega) (by omega)
    rw [hother _ (by omega) (by omega) (by omega)]
    by_cases hcj : c = j
    · rw [hcj, hmoved]
      exact hup
    · have hclt := parent_lt hc
      rw [hother c hcn (by omega) hcj]
      exact hup.trans (hpc ▸ h.off c hc hcn hcj (by omega))
  · intro c hc hcn hpc
    rw [hparent]
    by_cases hcj : c = j
    · rw [hcj, hmoved]
      exact hless.le
    · have hclt := parent_lt hc
      rw [hother c hcn (by omega) hcj]
      exact hless.le.trans (hpc ▸ h.off c hc hcn hcj (by omega))

theorem ordered_of_around (h : Around I s n i) (hbelow : Below I s n i)
    (habove : 0 < i → I.key s (parent i) ≤ I.key s i) : Ordered I s n := by
  intro j hpos hj
  by_cases hji : j = i
  · subst hji
    exact habove hpos
  · by_cases hpi : parent j = i
    · exact hpi ▸ hbelow j hpos hj hpi
    · exact h.off j hpos hj hji hpi

theorem upFrom_ordered {fuel : Nat} (hfuel : j ≤ fuel) (hn : n ≤ I.len s) (hj : j < n)
    (h : Around I s n j) (hbelow : Below I s n j) : Ordered I (upFrom I fuel s j) n := by
  induction fuel generalizing s j with
  | zero =>
    exact ordered_of_around h hbelow (fun hpos => by omega)
  | succ fuel ih =>
    rw [upFrom]
    split
    · next hstop =>
      refine ordered_of_around h hbelow fun hpos => ?_
      have hlt := parent_lt hpos
      exact not_lt.mp (hstop.resolve_left (by omega))
    · next hgo =>
      obtain ⟨hne, hless⟩ := not_or.mp hgo
      have hpos : 0 < j := by
        rcases Nat.eq_zero_or_pos j with rfl | hpos
        · exact absurd rfl hne
        · exact hpos
      have hlt := parent_lt hpos
      obtain ⟨haround, hbelow⟩ := up_step hn hj hpos h (not_not.mp hless)
      exact ih (by omega) (I.len_swap.symm ▸ hn) (by omega) haround hbelow

theorem up_ordered (hn : n ≤ I.len s) (hj : j < n) (h : Around I s n j) (hbelow : Below I s n j) :
    Ordered I (up I s j) n :=
  upFrom_ordered le_rfl hn hj h hbelow

/-- The child that `down` compares with is one below `n` with the smallest key. -/
theorem child_spec (hi : 2 * i + 1 < n) : child I s i n < n ∧ parent (child I s i n) = i ∧
    i < child I s i n ∧ ∀ j, 0 < j → j < n → parent j = i → I.key s (child I s i n) ≤
      I.key s j := by
  have hcases : ∀ j, 0 < j → parent j = i → j = 2 * i + 1 ∨ j = 2 * i + 2 := by
    intro j hpos hj
    unfold parent at hj
    omega
  unfold child
  split
  · next hright =>
    refine ⟨hright.1, by unfold parent; omega, by omega, fun j hpos hj hji => ?_⟩
    rcases hcases j hpos hji with rfl | rfl
    · exact hright.2.le
    · exact le_rfl
  · next hleft =>
    refine ⟨hi, by unfold parent; omega, by omega, fun j hpos hj hji => ?_⟩
    rcases hcases j hpos hji with rfl | rfl
    · exact le_rfl
    · exact not_lt.mp fun hlt => hleft ⟨hj, hlt⟩

/-- A round of `down` that moves the entry leaves the slots in order around the child, and the entry
no smaller than its new parent. -/
theorem down_step (hn : n ≤ I.len s) (hi : 2 * i + 1 < n) (h : Around I s n i)
    (hless : I.key s (child I s i n) < I.key s i) :
    Around I (I.swap s i (child I s i n)) n (child I s i n) ∧
      I.key (I.swap s i (child I s i n)) (parent (child I s i n)) ≤
        I.key (I.swap s i (child I s i n)) (child I s i n) := by
  obtain ⟨hcn, hpc, hic, hmin⟩ := child_spec (I := I) (s := s) hi
  generalize child I s i n = c at *
  have hi' : i < I.len s := by omega
  have hc' : c < I.len s := by omega
  have hparent : I.key (I.swap s i c) i = I.key s c := key_swap_left hi' hc'
  have hmoved : I.key (I.swap s i c) c = I.key s i := key_swap_right hi' hc'
  have hother : ∀ k, k < n → k ≠ i → k ≠ c → I.key (I.swap s i c) k = I.key s k :=
    fun k hk => key_swap_other hi' hc' (by omega)
  refine ⟨⟨?_, ?_⟩, ?_⟩
  · intro j hpos hj hjc hpj
    have hlt := parent_lt hpos
    by_cases hji : j = i
    · subst hji
      rw [hparent, hother _ (by omega) (by omega) hpj]
      exact h.across c (by omega) hcn hpc hpos
    · rw [hother j hj hji hjc]
      by_cases hpi : parent j = i
      · rw [hpi, hparent]
        exact hmin j hpos hj hpi
      · rw [hother _ (by omega) hpi hpj]
        exact h.off j hpos hj hji hpi
  · intro j hpos hj hjc _
    have hlt := parent_lt hpos
    rw [hpc, hparent, hother j hj (by omega) (by omega)]
    exact hjc ▸ h.off j hpos hj (by omega) (by omega)
  · rw [hpc, hparent, hmoved]
    exact hless.le

theorem le_downFrom {fuel : Nat} : i ≤ (downFrom I fuel s i n).2 := by
  induction fuel generalizing s i with
  | zero => exact le_rfl
  | succ fuel ih =>
    rw [downFrom]
    split
    · exact le_rfl
    · next hin =>
      split
      · exact le_rfl
      · exact (child_spec (by omega)).2.2.1.le.trans ih

theorem below_of_leaf (hn : n ≤ 2 * i + 1) : Below I s n i := by
  intro j hpos hj hji
  unfold parent at hji
  omega

theorem below_of_child (hi : 2 * i + 1 < n) (hle : I.key s i ≤ I.key s (child I s i n)) :
    Below I s n i :=
  fun j hpos hj hji => hle.trans ((child_spec hi).2.2.2 j hpos hj hji)

theorem downFrom_ordered {fuel : Nat} (hfuel : n ≤ i + fuel) (hn : n ≤ I.len s)
    (h : Around I s n i) (habove : 0 < i → I.key s (parent i) ≤ I.key s i) :
    Ordered I (downFrom I fuel s i n).1 n := by
  induction fuel generalizing s i with
  | zero => exact around_last h (by omega)
  | succ fuel ih =>
    rw [downFrom]
    split
    · next hleaf => exact ordered_of_around h (below_of_leaf hleaf) habove
    · next hin =>
      have hin : 2 * i + 1 < n := by omega
      split
      · next hstop =>
        exact ordered_of_around h (below_of_child hin (not_lt.mp hstop)) habove
      · next hgo =>
        obtain ⟨haround, hup⟩ := down_step hn hin h (not_not.mp hgo)
        have hic := (child_spec (I := I) (s := s) hin).2.2.1
        exact ih (by omega) (I.len_swap.symm ▸ hn) haround (fun _ => hup)

/-- `Fix` puts the slots in order, whichever way the key of slot `i` has changed. -/
theorem fixWithin_ordered (hn : n ≤ I.len s) (hi : i < n) (h : Around I s n i) :
    Ordered I (fixWithin I s i n) n := by
  obtain ⟨m, rfl⟩ : ∃ m, n = m + 1 := ⟨n - 1, by omega⟩
  simp only [fixWithin, down, downFrom]
  split
  · next hleaf =>
    simp only [lt_irrefl, decide_false, Bool.false_eq_true, if_false]
    exact up_ordered hn hi h (below_of_leaf hleaf)
  · next hin =>
    have hin : 2 * i + 1 < m + 1 := by omega
    split
    · next hstop =>
      simp only [lt_irrefl, decide_false, Bool.false_eq_true, if_false]
      exact up_ordered hn hi h (below_of_child hin (not_lt.mp hstop))
    · next hgo =>
      obtain ⟨haround, hup⟩ := down_step hn hin h (not_not.mp hgo)
      have hic := (child_spec (I := I) (s := s) hin).2.2.1
      rw [if_pos (by simpa using hic.trans_le le_downFrom)]
      exact downFrom_ordered (by omega) (I.len_swap.symm ▸ hn) haround (fun _ => hup)

theorem fix_ordered (hi : i < I.len s) (h : Around I s (I.len s) i) :
    Ordered I (fix I s i) (I.len s) :=
  fixWithin_ordered le_rfl hi h

/-- With the last slot left out, a removal keeps the order. -/
theorem toLast_ordered (hi : i < I.len s) (h : Ordered I s (I.len s)) :
    Ordered I (toLast I s i) (I.len s - 1) := by
  unfold toLast
  dsimp only
  split
  · exact fun j hpos hj => h j hpos (by omega)
  · next hne =>
    have hlast : I.len s - 1 < I.len s := by omega
    have hother : ∀ k, k < I.len s - 1 → k ≠ i →
        I.key (I.swap s i (I.len s - 1)) k = I.key s k :=
      fun k hk hki => key_swap_other hi hlast (by omega) hki (by omega)
    refine fixWithin_ordered (I.len_swap.symm ▸ by omega) (by omega) ⟨?_, ?_⟩
    · intro j hpos hj hji hpi
      have hlt := parent_lt hpos
      rw [hother j hj hji, hother _ (by omega) hpi]
      exact h j hpos (by omega)
    · intro j hpos hj hpi hi0
      have hlt := parent_lt hpos
      have hplt := parent_lt hi0
      rw [hother j hj (by omega), hother _ (by omega) (by omega)]
      exact (h i hi0 hi).trans (hpi ▸ h j hpos (by omega))

section Preserve

variable {P : σ → Prop}
variable (hswap : ∀ {s i j}, n ≤ I.len s → i < n → j < n → P s → P (I.swap s i j))

include hswap

/-- What a swap of two slots below `n` keeps, every operation on these slots keeps. -/
theorem upFrom_preserves {fuel : Nat} (hn : n ≤ I.len s) (hj : j < n) (h : P s) :
    P (upFrom I fuel s j) := by
  induction fuel generalizing s j with
  | zero => exact h
  | succ fuel ih =>
    rw [upFrom]
    split
    · exact h
    · have hle : parent j ≤ j := by
        unfold parent
        omega
      exact ih (I.len_swap.symm ▸ hn) (by omega) (hswap hn (by omega) hj h)

theorem up_preserves (hn : n ≤ I.len s) (hj : j < n) (h : P s) : P (up I s j) :=
  upFrom_preserves hswap hn hj h

theorem downFrom_preserves {fuel : Nat} (hn : n ≤ I.len s) (hi : i < n) (h : P s) :
    P (downFrom I fuel s i n).1 := by
  induction fuel generalizing s i with
  | zero => exact h
  | succ fuel ih =>
    rw [downFrom]
    split
    · exact h
    · split
      · exact h
      · have hc := (child_spec (I := I) (s := s) (n := n) (i := i) (by omega)).1
        exact ih (I.len_swap.symm ▸ hn) hc (hswap hn hi hc h)

theorem fixWithin_preserves (hn : n ≤ I.len s) (hi : i < n) (h : P s) : P (fixWithin I s i n) := by
  have hdown : P (downFrom I n s i n).1 := downFrom_preserves hswap hn hi h
  have hlen : n ≤ I.len (downFrom I n s i n).1 :=
    downFrom_preserves (P := fun t => n ≤ I.len t) (fun h _ _ _ => I.len_swap.symm ▸ h) hn hi hn
  simp only [fixWithin, down, decide_eq_true_eq]
  by_cases hmoved : i < (downFrom I n s i n).2
  · rwa [if_pos hmoved]
  · rw [if_neg hmoved]
    exact up_preserves hswap hlen hi hdown

end Preserve

theorem fix_preserves {P : σ → Prop}
    (hswap : ∀ {t i j}, i < I.len t → j < I.len t → P t → P (I.swap t i j)) (hi : i < I.len s)
    (h : P s) : P (fix I s i) :=
  fixWithin_preserves (fun hn hi hj => hswap (by omega) (by omega)) le_rfl hi h

/-- A removal swaps the entry into the last slot and leaves that slot alone from then on. -/
theorem toLast_preserves {P : σ → Prop}
    (hswap : ∀ {t i j}, I.len s - 1 ≤ I.len t → i < I.len s - 1 → j < I.len s - 1 → P t →
      P (I.swap t i j))
    (hi : i < I.len s) (hlast : i = I.len s - 1 → P s)
    (hother : i ≠ I.len s - 1 → P (I.swap s i (I.len s - 1))) : P (toLast I s i) := by
  unfold toLast
  dsimp only
  split
  · next heq => exact hlast heq.symm
  · next hne =>
    refine fixWithin_preserves hswap ?_ (by omega) (hother (Ne.symm hne))
    rw [I.len_swap]
    omega

end Heap
