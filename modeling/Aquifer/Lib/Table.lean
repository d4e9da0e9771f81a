import Mathlib.Data.List.Basic
import Mathlib.Data.List.Nodup
import Mathlib.Tactic.Common

/-! Finite tables with a primary key and a second unique key. -/

universe u v w

/-- Rows no two of which share their primary key `id` or their second key `alt`. -/
@[ext]
structure Table (α : Type u) {ι : Type v} {κ : Type w} (id : α → ι) (alt : α → κ) where
  rows : List α
  ids_nodup : (rows.map id).Nodup
  alts_nodup : (rows.map alt).Nodup

namespace Table

variable {α : Type u} {ι : Type v} {κ : Type w} {id : α → ι} {alt : α → κ}
  {t : Table α id alt} {r : α} {i j : ι} {k : κ}

def empty : Table α id alt := ⟨[], List.nodup_nil, List.nodup_nil⟩

def filter (t : Table α id alt) (p : α → Bool) : Table α id alt where
  rows := t.rows.filter p
  ids_nodup := t.ids_nodup.sublist (List.filter_sublist.map _)
  alts_nodup := t.alts_nodup.sublist (List.filter_sublist.map _)

/-- Rewrites every row, keeping both of its keys. -/
def map (t : Table α id alt) (f : α → α) (hf : ∀ r, id (f r) = id r ∧ alt (f r) = alt r) :
    Table α id alt where
  rows := t.rows.map f
  ids_nodup := by
    rw [List.map_map, show id ∘ f = id from funext fun r => (hf r).1]
    exact t.ids_nodup
  alts_nodup := by
    rw [List.map_map, show alt ∘ f = alt from funext fun r => (hf r).2]
    exact t.alts_nodup

theorem nodup_rows : t.rows.Nodup := t.ids_nodup.of_map _

theorem eq_of_id {a b : α} (ha : a ∈ t.rows) (hb : b ∈ t.rows) (h : id a = id b) : a = b :=
  List.inj_on_of_nodup_map t.ids_nodup ha hb h

theorem eq_of_alt {a b : α} (ha : a ∈ t.rows) (hb : b ∈ t.rows) (h : alt a = alt b) : a = b :=
  List.inj_on_of_nodup_map t.alts_nodup ha hb h

section Primary

variable [DecidableEq ι]

def find (t : Table α id alt) (i : ι) : Option α := t.rows.find? fun r => id r = i

/-- Rewrites one row in place, keeping both of its keys. -/
def update (t : Table α id alt) (i : ι) (f : α → α)
    (hf : ∀ r, id (f r) = id r ∧ alt (f r) = alt r) : Table α id alt where
  rows := t.rows.map fun r => if id r = i then f r else r
  ids_nodup := by
    have : (id ∘ fun r => if id r = i then f r else r) = id := by
      funext r
      by_cases h : id r = i <;> simp [h, (hf r).1]
    rw [List.map_map, this]
    exact t.ids_nodup
  alts_nodup := by
    have : (alt ∘ fun r => if id r = i then f r else r) = alt := by
      funext r
      by_cases h : id r = i <;> simp [h, (hf r).2]
    rw [List.map_map, this]
    exact t.alts_nodup

def erase (t : Table α id alt) (i : ι) : Table α id alt := t.filter fun r => id r ≠ i

theorem find_eq_some_iff : t.find i = some r ↔ r ∈ t.rows ∧ id r = i := by
  constructor
  · intro h
    exact ⟨List.mem_of_find?_eq_some h, by simpa using List.find?_some h⟩
  · rintro ⟨hr, hi⟩
    cases hf : t.find i with
    | none => exact absurd hi (by simpa using List.find?_eq_none.mp hf r hr)
    | some x =>
      have hx : id x = i := by simpa using List.find?_some hf
      rw [eq_of_id (List.mem_of_find?_eq_some hf) hr (hx.trans hi.symm)]

theorem find_eq_none_iff : t.find i = none ↔ ∀ r ∈ t.rows, id r ≠ i := by
  simp [find]

variable {f : α → α} {hf : ∀ r, id (f r) = id r ∧ alt (f r) = alt r}

theorem mem_update {a : α} :
    a ∈ (t.update i f hf).rows ↔
      (a ∈ t.rows ∧ id a ≠ i) ∨ ∃ r ∈ t.rows, id r = i ∧ a = f r := by
  simp only [update, List.mem_map]
  constructor
  · rintro ⟨r, hr, rfl⟩
    by_cases h : id r = i
    · exact .inr ⟨r, hr, h, if_pos h⟩
    · exact .inl ⟨by simpa [h] using hr, by simp [h]⟩
  · rintro (⟨ha, hi⟩ | ⟨r, hr, hi, rfl⟩)
    · exact ⟨a, ha, if_neg hi⟩
    · exact ⟨r, hr, if_pos hi⟩

/-- What an update keeps true of a row, the table keeps. -/
theorem exists_update {P : α → Prop} (hP : ∀ r, P r → P (f r)) (h : ∃ r ∈ t.rows, P r) :
    ∃ r ∈ (t.update i f hf).rows, P r := by
  obtain ⟨r, hr, hp⟩ := h
  by_cases hi : id r = i
  · exact ⟨f r, mem_update.mpr (.inr ⟨r, hr, hi, rfl⟩), hP r hp⟩
  · exact ⟨r, mem_update.mpr (.inl ⟨hr, hi⟩), hp⟩

theorem forall_update {P : α → Prop} (h : ∀ r ∈ t.rows, P r)
    (hi : ∀ r ∈ t.rows, id r = i → P (f r)) :
    ∀ r ∈ (t.update i f hf).rows, P r := by
  intro r hr
  rcases mem_update.mp hr with ⟨hr, -⟩ | ⟨x, hx, hid, rfl⟩
  · exact h r hr
  · exact hi x hx hid

theorem find_update :
    (t.update i f hf).find j = if j = i then (t.find j).map f else t.find j := by
  cases hj : t.find j with
  | none =>
    rw [find_eq_none_iff] at hj
    have : (t.update i f hf).find j = none := by
      rw [find_eq_none_iff]
      intro r hr
      rcases mem_update.mp hr with ⟨hr, -⟩ | ⟨x, hx, -, rfl⟩
      · exact hj r hr
      · rw [(hf x).1]
        exact hj x hx
    simp [this]
  | some r =>
    obtain ⟨hr, rfl⟩ := find_eq_some_iff.mp hj
    by_cases h : id r = i
    · rw [if_pos h]
      exact find_eq_some_iff.mpr ⟨mem_update.mpr (.inr ⟨r, hr, h, rfl⟩), (hf r).1⟩
    · rw [if_neg h]
      exact find_eq_some_iff.mpr ⟨mem_update.mpr (.inl ⟨hr, h⟩), rfl⟩

theorem find_map :
    (t.map f hf).find j = (t.find j).map f := by
  have hkeys : (fun r => decide (id r = j)) ∘ f = fun r => decide (id r = j) := by
    funext r
    simp only [Function.comp, (hf r).1]
  rw [find, map, List.find?_map, hkeys, find]

theorem find_filter {p : α → Bool} : (t.filter p).find i = (t.find i).filter p := by
  cases hi : t.find i with
  | none =>
    rw [find_eq_none_iff] at hi
    rw [Option.filter_none, find_eq_none_iff]
    exact fun r hr => hi r (List.mem_of_mem_filter hr)
  | some r =>
    obtain ⟨hr, rfl⟩ := find_eq_some_iff.mp hi
    by_cases hp : p r
    · rw [Option.filter_some, if_pos hp]
      exact find_eq_some_iff.mpr ⟨List.mem_filter.mpr ⟨hr, hp⟩, rfl⟩
    · rw [Option.filter_some, if_neg hp, find_eq_none_iff]
      intro x hx hid
      obtain ⟨hx, hpx⟩ := List.mem_filter.mp hx
      exact hp (eq_of_id hx hr hid ▸ hpx)

theorem find_erase : (t.erase i).find j = if j = i then none else t.find j := by
  rw [erase, find_filter]
  cases hj : t.find j with
  | none => simp
  | some r =>
    obtain ⟨-, rfl⟩ := find_eq_some_iff.mp hj
    by_cases h : id r = i <;> simp [h]

theorem erase_of_find (hi : t.find i = none) : t.erase i = t := by
  have hall := find_eq_none_iff.mp hi
  exact Table.ext (List.filter_eq_self.mpr fun x hx => by simpa using hall x hx)

theorem erase_update :
    (t.update i f hf).erase i = t.erase i := by
  refine Table.ext ?_
  show (t.rows.map fun r => if id r = i then f r else r).filter _ = t.rows.filter _
  induction t.rows with
  | nil => rfl
  | cons r rows ih =>
    rw [List.map_cons, List.filter_cons, List.filter_cons, ih]
    by_cases hr : id r = i
    · simp [hr, (hf r).1]
    · simp [hr]

theorem mem_erase {a : α} : a ∈ (t.erase i).rows ↔ a ∈ t.rows ∧ id a ≠ i := by
  simp [erase, filter]

end Primary

section Secondary

variable [DecidableEq κ]

def findAlt (t : Table α id alt) (k : κ) : Option α := t.rows.find? fun r => alt r = k

theorem findAlt_eq_some_iff : t.findAlt k = some r ↔ r ∈ t.rows ∧ alt r = k := by
  constructor
  · intro h
    exact ⟨List.mem_of_find?_eq_some h, by simpa using List.find?_some h⟩
  · rintro ⟨hr, hk⟩
    cases hf : t.findAlt k with
    | none => exact absurd hk (by simpa using List.find?_eq_none.mp hf r hr)
    | some x =>
      have hx : alt x = k := by simpa using List.find?_some hf
      rw [eq_of_alt (List.mem_of_find?_eq_some hf) hr (hx.trans hk.symm)]

theorem findAlt_eq_none_iff : t.findAlt k = none ↔ ∀ r ∈ t.rows, alt r ≠ k := by
  simp [findAlt]

variable [DecidableEq ι]

/-- Adds a row whose keys are both unused; otherwise nothing changes. -/
def insert (t : Table α id alt) (r : α) : Table α id alt :=
  if h : id r ∉ t.rows.map id ∧ alt r ∉ t.rows.map alt then
    ⟨r :: t.rows, List.nodup_cons.mpr ⟨h.1, t.ids_nodup⟩,
      List.nodup_cons.mpr ⟨h.2, t.alts_nodup⟩⟩
  else t

theorem rows_insert (hi : t.find (id r) = none) (hk : t.findAlt (alt r) = none) :
    (t.insert r).rows = r :: t.rows := by
  rw [find_eq_none_iff] at hi
  rw [findAlt_eq_none_iff] at hk
  rw [insert, dif_pos]
  exact ⟨by simpa using hi, by simpa using hk⟩

theorem mem_insert_self (hi : t.find (id r) = none) (hk : t.findAlt (alt r) = none) :
    r ∈ (t.insert r).rows := by
  rw [rows_insert hi hk]
  exact List.mem_cons_self

theorem find_insert (hi : t.find (id r) = none) (hk : t.findAlt (alt r) = none) :
    (t.insert r).find i = if id r = i then some r else t.find i := by
  rw [find, rows_insert hi hk, List.find?_cons]
  by_cases h : id r = i <;> simp [h, find]

theorem mem_insert {a : α} (h : a ∈ (t.insert r).rows) : a = r ∨ a ∈ t.rows := by
  unfold insert at h
  split at h
  · exact List.mem_cons.mp h
  · exact .inr h

theorem erase_insert (hi : t.find (id r) = none) : (t.insert r).erase (id r) = t := by
  have hkeep := erase_of_find hi
  unfold insert
  split
  · refine Table.ext (Eq.trans ?_ (congrArg rows hkeep))
    simp [erase, filter]
  · exact hkeep

theorem mem_insert_of_mem {a : α} (h : a ∈ t.rows) : a ∈ (t.insert r).rows := by
  unfold insert
  split
  · exact List.mem_cons_of_mem _ h
  · exact h

end Secondary

end Table
