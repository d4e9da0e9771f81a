import Mathlib.Algebra.GroupWithZero.Nat
import Mathlib.Data.List.AList
import Mathlib.Tactic.Common

/-! Finite maps from keys to values: what is left by a filter, and counting the entries kept. -/

universe u v

abbrev Assoc (κ : Type u) (ν : Type v) := AList fun _ : κ => ν

namespace Assoc

variable {κ : Type u} {ν : Type v} {m : Assoc κ ν} {k j : κ} {v : ν}

/-- The entries that pass a test, as a loop that deletes the others leaves them. -/
def keep (m : Assoc κ ν) (p : κ → ν → Bool) : Assoc κ ν :=
  ⟨m.entries.filter fun e => p e.1 e.2, m.nodupKeys.sublist List.filter_sublist⟩

/-- The same keys with other values. -/
def mapVal {μ : Type v} (m : Assoc κ ν) (f : ν → μ) : Assoc κ μ where
  entries := m.entries.map fun e => ⟨e.1, f e.2⟩
  nodupKeys := by
    have hkeys : (m.entries.map fun e => (⟨e.1, f e.2⟩ : (_ : κ) × μ)).keys = m.entries.keys := by
      simp [List.keys]
    rw [List.NodupKeys, hkeys]
    exact m.nodupKeys

theorem mem_entries_keep {p : κ → ν → Bool} :
    ⟨k, v⟩ ∈ (keep m p).entries ↔ ⟨k, v⟩ ∈ m.entries ∧ p k v = true := by
  simp [keep]

theorem keys_eq_nil_iff : m.keys = [] ↔ m = ∅ := by
  constructor
  · intro h
    exact AList.ext (List.map_eq_nil_iff.mp h)
  · rintro rfl
    rfl

variable [DecidableEq κ]

theorem mem_entries_iff : ⟨k, v⟩ ∈ m.entries ↔ m.lookup k = some v :=
  AList.mem_lookup_iff.symm

theorem lookup_keep {p : κ → ν → Bool} : (keep m p).lookup k = (m.lookup k).filter (p k) := by
  ext v
  rw [← mem_entries_iff, mem_entries_keep, mem_entries_iff, Option.filter_eq_some_iff]

theorem lookup_mapVal {μ : Type v} {f : ν → μ} : (mapVal m f).lookup k = (m.lookup k).map f := by
  ext w
  rw [← mem_entries_iff, Option.map_eq_some_iff]
  simp [mapVal, ← mem_entries_iff]

theorem lookup_insert_ite : (m.insert k v).lookup j = if j = k then some v else m.lookup j := by
  by_cases h : j = k
  · subst h
    rw [if_pos rfl, AList.lookup_insert]
  · rw [if_neg h, AList.lookup_insert_ne h]

theorem lookup_erase_ite : (m.erase k).lookup j = if j = k then none else m.lookup j := by
  by_cases h : j = k
  · subst h
    rw [if_pos rfl, AList.lookup_erase]
  · rw [if_neg h, AList.lookup_erase_ne h]

theorem exists_lookup_of_ne (h : m ≠ ∅) : ∃ k v, m.lookup k = some v := by
  obtain ⟨k, hk⟩ := List.exists_mem_of_ne_nil _ (mt keys_eq_nil_iff.mp h)
  obtain ⟨v, hv⟩ := Option.isSome_iff_exists.mp (AList.lookup_isSome.mpr hk)
  exact ⟨k, v, hv⟩

theorem perm_erase (h : m.lookup k = some v) : m.entries.Perm (⟨k, v⟩ :: (m.erase k).entries) := by
  have hmem : ⟨k, v⟩ ∈ m.entries := mem_entries_iff.mpr h
  obtain ⟨w, front, back, hfront, hl, herase⟩ :=
    List.exists_of_kerase (List.mem_keys_of_mem hmem)
  have hw : m.lookup k = some w := mem_entries_iff.mp (by simp [hl])
  obtain rfl : w = v := Option.some.inj (hw.symm.trans h)
  change m.entries.Perm (⟨k, w⟩ :: m.entries.kerase k)
  rw [herase, hl]
  exact List.perm_middle

theorem erase_of_lookup (h : m.lookup k = none) : m.erase k = m :=
  AList.ext (List.kerase_of_notMem_keys (AList.lookup_eq_none.mp h))

section Collect

variable {α : Type*} {f : α → Option (κ × ν)} {l : List α}

def store (m : Assoc κ ν) : Option (κ × ν) → Assoc κ ν
  | some (k, v) => m.insert k v
  | none => m

/-- A loop that stores what it makes of the elements of a list. -/
def collect (f : α → Option (κ × ν)) (m : Assoc κ ν) (l : List α) : Assoc κ ν :=
  l.foldl (fun m a => m.store (f a)) m

theorem lookup_store_iff {o : Option (κ × ν)} : (m.store o).lookup k = some v ↔
    o = some (k, v) ∨ (∀ w, o ≠ some (k, w)) ∧ m.lookup k = some v := by
  rcases o with - | ⟨j, w⟩
  · simp [store]
  · rw [store, lookup_insert_ite]
    split
    · next heq => simp [heq]
    · next hne => simp [Ne.symm hne]

theorem lookup_collect_cases (h : (collect f m l).lookup k = some v) :
    (∃ a ∈ l, f a = some (k, v)) ∨ m.lookup k = some v := by
  induction l generalizing m with
  | nil => exact .inr h
  | cons a l ih =>
    rcases ih h with ⟨b, hb, hf⟩ | hm
    · exact .inl ⟨b, List.mem_cons_of_mem a hb, hf⟩
    · rcases lookup_store_iff.mp hm with hf | ⟨-, hm⟩
      · exact .inl ⟨a, List.mem_cons_self, hf⟩
      · exact .inr hm

theorem exists_lookup_collect (h : (∃ a ∈ l, ∃ v, f a = some (k, v)) ∨ ∃ v, m.lookup k = some v) :
    ∃ v, (collect f m l).lookup k = some v := by
  induction l generalizing m with
  | nil => exact h.resolve_left (by simp)
  | cons a l ih =>
    refine ih ?_
    by_cases ha : ∃ v, f a = some (k, v)
    · obtain ⟨v, hv⟩ := ha
      exact .inr ⟨v, lookup_store_iff.mpr (.inl hv)⟩
    · rcases h with ⟨b, hb, hv⟩ | ⟨v, hv⟩
      · rcases List.mem_cons.mp hb with rfl | hb
        · exact absurd hv ha
        · exact .inl ⟨b, hb, hv⟩
      · exact .inr ⟨v, lookup_store_iff.mpr (.inr ⟨fun w hw => ha ⟨w, hw⟩, hv⟩)⟩

/-- Elements that make values of one key agree on it. -/
theorem lookup_collect_iff
    (h : ∀ {a b v w}, a ∈ l → b ∈ l → f a = some (k, v) → f b = some (k, w) → v = w) :
    (collect f ∅ l).lookup k = some v ↔ ∃ a ∈ l, f a = some (k, v) := by
  have hmem : ∀ {w}, (collect f ∅ l).lookup k = some w → ∃ a ∈ l, f a = some (k, w) := by
    intro w hw
    exact (lookup_collect_cases hw).resolve_right (by simp)
  refine ⟨hmem, ?_⟩
  rintro ⟨a, ha, hf⟩
  obtain ⟨w, hw⟩ := exists_lookup_collect (m := ∅) (.inl ⟨a, ha, v, hf⟩)
  obtain ⟨b, hb, hfb⟩ := hmem hw
  rw [hw, h ha hb hf hfb]

end Collect

theorem sum_erase {m : Assoc κ Nat} : ((m.erase k).entries.map fun e => e.2).sum +
    (m.lookup k).getD 0 = (m.entries.map fun e => e.2).sum := by
  cases h : m.lookup k with
  | none =>
    rw [erase_of_lookup h]
    rfl
  | some v =>
    rw [((perm_erase h).map fun e => e.2).sum_nat, List.map_cons, List.sum_cons, Nat.add_comm]
    rfl

theorem sum_insert {m : Assoc κ Nat} {n : Nat} : ((m.insert k n).entries.map fun e => e.2).sum +
    (m.lookup k).getD 0 = (m.entries.map fun e => e.2).sum + n := by
  have hsum := sum_erase (m := m) (k := k)
  change ((⟨k, n⟩ :: (m.erase k).entries).map fun e => e.2).sum + _ = _
  rw [List.map_cons, List.sum_cons]
  dsimp only
  omega

end Assoc
