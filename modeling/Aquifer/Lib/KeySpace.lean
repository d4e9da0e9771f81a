import Mathlib.Data.List.Nodup
import Mathlib.Order.Lattice
import Mathlib.Tactic.Common

/-! An ordered key-value space: a finite map that is iterated in key order, with point and range
deletes and counting. -/

universe u v

/-- Entries in strictly increasing key order. -/
structure KeySpace (κ : Type u) (ν : Type v) [LinearOrder κ] where
  entries : List (κ × ν) := []
  sorted : entries.Pairwise fun a b => a.1 < b.1 := by exact List.Pairwise.nil

namespace KeySpace

variable {κ : Type u} {ν : Type v} [LinearOrder κ] {m : KeySpace κ ν} {k j : κ} {v w : ν}
  {es : List (κ × ν)} {ks : List κ}

theorem ext_entries {m n : KeySpace κ ν} (h : m.entries = n.entries) : m = n := by
  cases m
  cases n
  congr

instance [DecidableEq ν] : DecidableEq (KeySpace κ ν) := fun m n =>
  decidable_of_iff (m.entries = n.entries) ⟨ext_entries, congrArg entries⟩

def empty : KeySpace κ ν := {}

def get (m : KeySpace κ ν) (k : κ) : Option ν := (m.entries.find? fun e => e.1 = k).map Prod.snd

/-- The entry's place in key order; an entry under the same key is overwritten. -/
def place (k : κ) (v : ν) : List (κ × ν) → List (κ × ν)
  | [] => [(k, v)]
  | e :: es =>
    if k < e.1 then (k, v) :: e :: es
    else if k = e.1 then (k, v) :: es
    else e :: place k v es

theorem mem_place {e : κ × ν} (hs : es.Pairwise fun a b => a.1 < b.1) :
    e ∈ place k v es ↔ e = (k, v) ∨ e ∈ es ∧ e.1 ≠ k := by
  induction es with
  | nil => simp [place]
  | cons f es ih =>
    obtain ⟨hf, hes⟩ := List.pairwise_cons.mp hs
    unfold place
    split_ifs with hlt heq
    · have hne : ∀ x ∈ f :: es, x.1 ≠ k :=
        List.forall_mem_cons.mpr ⟨hlt.ne', fun x hx => (hlt.trans (hf x hx)).ne'⟩
      rw [List.mem_cons]
      exact or_congr_right ⟨fun h => ⟨h, hne e h⟩, And.left⟩
    · subst heq
      have hne : ∀ x ∈ es, x.1 ≠ f.1 := fun x hx => (hf x hx).ne'
      rw [List.mem_cons, List.mem_cons]
      refine or_congr_right ⟨fun h => ⟨.inr h, hne e h⟩, ?_⟩
      rintro ⟨rfl | h, hk⟩
      · exact absurd rfl hk
      · exact h
    · rw [List.mem_cons, ih hes, List.mem_cons]
      have hfk : f.1 ≠ k := Ne.symm heq
      constructor
      · rintro (rfl | rfl | ⟨h, hk⟩)
        · exact .inr ⟨.inl rfl, hfk⟩
        · exact .inl rfl
        · exact .inr ⟨.inr h, hk⟩
      · rintro (rfl | ⟨rfl | h, hk⟩)
        · exact .inr (.inl rfl)
        · exact .inl rfl
        · exact .inr (.inr ⟨h, hk⟩)

theorem sorted_place (hs : es.Pairwise fun a b => a.1 < b.1) :
    (place k v es).Pairwise fun a b => a.1 < b.1 := by
  induction es with
  | nil => exact List.pairwise_singleton _ _
  | cons f es ih =>
    obtain ⟨hf, hes⟩ := List.pairwise_cons.mp hs
    unfold place
    split_ifs with hlt heq
    · exact List.pairwise_cons.mpr
        ⟨List.forall_mem_cons.mpr ⟨hlt, fun x hx => hlt.trans (hf x hx)⟩, hs⟩
    · subst heq
      exact List.pairwise_cons.mpr ⟨hf, hes⟩
    · refine List.pairwise_cons.mpr ⟨fun x hx => ?_, ih hes⟩
      rcases (mem_place hes).mp hx with rfl | ⟨hx, -⟩
      · exact lt_of_le_of_ne (not_lt.mp hlt) (Ne.symm heq)
      · exact hf x hx

def put (m : KeySpace κ ν) (k : κ) (v : ν) : KeySpace κ ν :=
  ⟨place k v m.entries, sorted_place m.sorted⟩

/-- The entries whose key and value pass a test; a range delete keeps the keys outside the range. -/
def keep (m : KeySpace κ ν) (p : κ → ν → Bool) : KeySpace κ ν :=
  ⟨m.entries.filter fun e => p e.1 e.2, m.sorted.sublist List.filter_sublist⟩

def del (m : KeySpace κ ν) (k : κ) : KeySpace κ ν := m.keep fun j _ => j ≠ k

def keys (m : KeySpace κ ν) : List κ := m.entries.map Prod.fst

theorem nodup_keys : m.keys.Nodup := by
  have hsorted : m.keys.Pairwise (· < ·) := List.pairwise_map.mpr m.sorted
  exact hsorted.imp ne_of_lt

theorem nodup_entries : m.entries.Nodup := nodup_keys.of_map _

theorem eq_of_key {a b : κ × ν} (ha : a ∈ m.entries) (hb : b ∈ m.entries) (h : a.1 = b.1) :
    a = b :=
  List.inj_on_of_nodup_map nodup_keys ha hb h

theorem get_eq_some_iff : m.get k = some v ↔ (k, v) ∈ m.entries := by
  rw [get, Option.map_eq_some_iff]
  constructor
  · rintro ⟨e, he, rfl⟩
    have hk : e.1 = k := by simpa using List.find?_some he
    exact hk ▸ List.mem_of_find?_eq_some he
  · intro h
    cases hf : m.entries.find? fun e => e.1 = k with
    | none => simpa using List.find?_eq_none.mp hf (k, v) h
    | some e =>
      have hk : e.1 = k := by simpa using List.find?_some hf
      exact ⟨e, rfl, by rw [eq_of_key (List.mem_of_find?_eq_some hf) h hk]⟩

theorem get_isSome_iff : (m.get k).isSome = true ↔ k ∈ m.keys := by
  simp [Option.isSome_iff_exists, get_eq_some_iff, keys]

theorem ext_get {m n : KeySpace κ ν} (h : ∀ k, m.get k = n.get k) : m = n := by
  have hmem : ∀ e, e ∈ m.entries ↔ e ∈ n.entries := by
    rintro ⟨k, v⟩
    rw [← get_eq_some_iff, ← get_eq_some_iff, h]
  have hperm := (List.perm_ext_iff_of_nodup nodup_entries nodup_entries).mpr hmem
  exact ext_entries
    (hperm.eq_of_pairwise (fun _ _ _ _ hab hba => absurd hab hba.not_gt) m.sorted n.sorted)

theorem get_put : (m.put k v).get j = if j = k then some v else m.get j := by
  ext w
  rw [get_eq_some_iff, put, mem_place m.sorted]
  split_ifs with h
  · simp [h, eq_comm]
  · simp [h, get_eq_some_iff]

theorem get_keep {p : κ → ν → Bool} : (m.keep p).get k = (m.get k).filter (p k) := by
  ext w
  rw [get_eq_some_iff, Option.filter_eq_some_iff, get_eq_some_iff, keep, List.mem_filter]

theorem get_del : (m.del k).get j = if j = k then none else m.get j := by
  rw [del, get_keep]
  split_ifs with h
  · simp [h]
  · cases m.get j <;> simp [h]

theorem del_put : (m.put k v).del k = m.del k := by
  refine ext_get fun j => ?_
  rw [get_del, get_put, get_del]
  split_ifs <;> rfl

theorem get_eq_none_iff : m.get k = none ↔ k ∉ m.keys := by
  rw [← get_isSome_iff, Bool.not_eq_true, Option.isSome_eq_false_iff, Option.isNone_iff_eq_none]

theorem mem_keys_put : j ∈ (m.put k v).keys ↔ j = k ∨ j ∈ m.keys := by
  rw [← get_isSome_iff, get_put, ← get_isSome_iff]
  split_ifs with h <;> simp [h]

theorem mem_keys_del : j ∈ (m.del k).keys ↔ j ∈ m.keys ∧ j ≠ k := by
  rw [← get_isSome_iff, get_del, ← get_isSome_iff]
  split_ifs with h <;> simp [h]

theorem mem_keys_del_if {p : Prop} [Decidable p] :
    j ∈ (if p then m.del k else m).keys ↔ j ∈ m.keys ∧ (p → j ≠ k) := by
  split_ifs with h
  · simp [mem_keys_del, h]
  · simp [h]

theorem mem_keys_keep_key {p : κ → Bool} : j ∈ (m.keep fun k _ => p k).keys ↔ j ∈ m.keys ∧ p j := by
  simp only [keys, keep, List.mem_map, List.mem_filter]
  constructor
  · rintro ⟨e, ⟨he, hp⟩, rfl⟩
    exact ⟨⟨e, he, rfl⟩, hp⟩
  · rintro ⟨⟨e, he, rfl⟩, hp⟩
    exact ⟨e, ⟨he, hp⟩, rfl⟩

/-- The listed keys deleted one after the other. -/
def delAll (m : KeySpace κ ν) (ks : List κ) : KeySpace κ ν := ks.foldl del m

theorem get_delAll : (m.delAll ks).get j = if j ∈ ks then none else m.get j := by
  induction ks generalizing m with
  | nil => simp [delAll]
  | cons k ks ih =>
    rw [delAll, List.foldl_cons, ← delAll, ih, get_del]
    by_cases h : j = k <;> simp [h]

theorem mem_keys_delAll : j ∈ (m.delAll ks).keys ↔ j ∈ m.keys ∧ j ∉ ks := by
  rw [← get_isSome_iff, get_delAll, ← get_isSome_iff]
  split_ifs with h <;> simp [h]

theorem sorted_keys : m.keys.Pairwise (· < ·) := List.pairwise_map.mpr m.sorted

theorem entries_delAll :
    (m.delAll ks).entries = m.entries.filter fun e => e.1 ∉ ks := by
  induction ks generalizing m with
  | nil => simp [delAll]
  | cons k ks ih =>
    rw [delAll, List.foldl_cons, ← delAll, ih, del, keep, List.filter_filter]
    exact List.filter_congr fun e _ => by simp [Bool.and_comm]

/-- A key past all others goes to the end. -/
theorem entries_put_last (h : ∀ j ∈ m.keys, j < k) :
    (m.put k v).entries = m.entries ++ [(k, v)] := by
  have hplace : ∀ es : List (κ × ν), (∀ e ∈ es, e.1 < k) → place k v es = es ++ [(k, v)] := by
    intro es hes
    induction es with
    | nil => rfl
    | cons e es ih =>
      obtain ⟨he, hes⟩ := List.forall_mem_cons.mp hes
      rw [place, if_neg he.not_gt, if_neg he.ne', ih hes, List.cons_append]
  exact hplace m.entries fun e he => h e.1 (List.mem_map_of_mem he)

/-- The listed keys put one after the other, for a space that only holds keys. -/
theorem mem_keys_foldl_put {α : Type*} {f : α → κ} {xs : List α} {m : KeySpace κ Unit} :
    j ∈ (xs.foldl (fun m x => m.put (f x) ()) m).keys ↔ j ∈ m.keys ∨ ∃ x ∈ xs, j = f x := by
  induction xs generalizing m with
  | nil => simp
  | cons x xs ih =>
    rw [List.foldl_cons, ih, mem_keys_put]
    simp only [List.mem_cons, exists_eq_or_imp]
    tauto

/-! ### Counting -/

def tally (m : KeySpace κ ν) (p : ν → Bool) : Nat := m.entries.countP fun e => p e.2

theorem perm_cons_del (hes : es.Nodup) (h : ∀ e, e ∈ es ↔ e = (k, v) ∨ e ∈ m.entries ∧ e.1 ≠ k) :
    es.Perm ((k, v) :: (m.del k).entries) := by
  refine (List.perm_ext_iff_of_nodup hes ?_).mpr fun e => ?_
  · refine List.nodup_cons.mpr ⟨fun h => ?_, nodup_entries⟩
    simpa [del, keep] using (List.mem_filter.mp h).2
  · rw [h, List.mem_cons, del, keep, List.mem_filter]
    simp

theorem perm_put : (m.put k v).entries.Perm ((k, v) :: (m.del k).entries) :=
  perm_cons_del nodup_entries fun _ => mem_place m.sorted

theorem perm_of_get (h : m.get k = some v) : m.entries.Perm ((k, v) :: (m.del k).entries) := by
  rw [get_eq_some_iff] at h
  refine perm_cons_del nodup_entries fun e => ⟨fun he => ?_, ?_⟩
  · by_cases hk : e.1 = k
    · exact .inl (eq_of_key he h hk)
    · exact .inr ⟨he, hk⟩
  · rintro (rfl | ⟨he, -⟩)
    · exact h
    · exact he

theorem tally_of_perm (p : ν → Bool) (h : es.Perm ((k, v) :: (m.del k).entries)) :
    es.countP (fun e => p e.2) = (m.del k).tally p + (p v).toNat := by
  rw [h.countP_eq, List.countP_cons, tally]
  cases p v <;> rfl

theorem tally_put (p : ν → Bool) : (m.put k v).tally p = (m.del k).tally p + (p v).toNat :=
  tally_of_perm p perm_put

theorem tally_of_get (p : ν → Bool) (h : m.get k = some v) :
    m.tally p = (m.del k).tally p + (p v).toNat :=
  tally_of_perm p (perm_of_get h)

theorem del_of_get (h : m.get k = none) : m.del k = m := by
  refine ext_entries (List.filter_eq_self.mpr fun e he => ?_)
  have : e.1 ≠ k := by
    rintro rfl
    exact absurd (get_eq_some_iff.mpr he) (by simp [h])
  simpa using this

/-! ### A second key -/

section Inverse

universe w

variable {ι : Type w} [LinearOrder ι] {f : ν → ι} {inv : KeySpace ι κ}

/-- The second key of every entry leads back to the entry's key, and no other does. -/
def Inverse (f : ν → ι) (m : KeySpace κ ν) (inv : KeySpace ι κ) : Prop :=
  ∀ i k, inv.get i = some k ↔ ∃ v, m.get k = some v ∧ f v = i

namespace Inverse

theorem put (h : Inverse f m inv) (hk : m.get k = none) (hfree : inv.get (f v) = none) :
    Inverse f (m.put k v) (inv.put (f v) k) := by
  intro i j
  rw [get_put, get_put]
  by_cases hj : j = k
  · subst hj
    have hold : inv.get i ≠ some j := by
      rw [ne_eq, h]
      simp [hk]
    rw [if_pos rfl]
    split_ifs with hi
    · simp [hi]
    · simp [hold, Ne.symm hi]
  · rw [if_neg hj, ← h]
    split_ifs with hi
    · subst hi
      simp [hfree, Ne.symm hj]
    · rfl

/-- An entry may change as long as it keeps its second key. -/
theorem rewrite (h : Inverse f m inv) (hv : m.get k = some v) (hf : f w = f v) :
    Inverse f (m.put k w) inv := by
  intro i j
  rw [h, get_put]
  by_cases hj : j = k
  · subst hj
    simp [hv, hf]
  · rw [if_neg hj]

theorem delAll (h : Inverse f m inv) {gone : List (κ × ν)}
    (hgone : ∀ x ∈ gone, m.get x.1 = some x.2) :
    Inverse f (m.delAll (gone.map Prod.fst)) (inv.delAll (gone.map fun x => f x.2)) := by
  intro i j
  rw [get_delAll, get_delAll]
  constructor
  · intro hold
    split_ifs at hold with hi
    obtain ⟨v, hv, rfl⟩ := (h i j).mp hold
    refine ⟨v, ?_, rfl⟩
    rw [if_neg, hv]
    intro hj
    obtain ⟨x, hx, rfl⟩ := List.mem_map.mp hj
    obtain rfl : x.2 = v := Option.some.inj ((hgone x hx).symm.trans hv)
    exact hi (List.mem_map_of_mem hx)
  · rintro ⟨v, hv, rfl⟩
    split_ifs at hv with hj
    have hold := (h _ j).mpr ⟨v, hv, rfl⟩
    rw [if_neg, hold]
    intro hi
    obtain ⟨x, hx, heq⟩ := List.mem_map.mp hi
    have hback := (h _ x.1).mpr ⟨x.2, hgone x hx, heq⟩
    rw [hold, Option.some.injEq] at hback
    exact hj (hback ▸ List.mem_map_of_mem hx)

theorem del (h : Inverse f m inv) (hv : m.get k = some v) :
    Inverse f (m.del k) (inv.del (f v)) := by
  have hone : ∀ x ∈ [(k, v)], m.get x.1 = some x.2 := by simpa using hv
  exact h.delAll hone

end Inverse

end Inverse

end KeySpace
