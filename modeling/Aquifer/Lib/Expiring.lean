import Aquifer.Lib.Assoc

/-! Maps whose keys expire, read at a time on the clock that set their deadlines. -/

universe u v

/-- Each key has its value and the time from which on it is gone. -/
abbrev Expiring (κ : Type u) (ν : Type v) := Assoc κ (ν × Nat)

namespace Expiring

variable {κ : Type u} {ν : Type v} [DecidableEq κ] {m : Expiring κ ν} {k j : κ} {v : ν}
  {now later deadline : Nat}

def get (m : Expiring κ ν) (now : Nat) (k : κ) : Option ν :=
  ((m.lookup k).filter fun e => now < e.2).map Prod.fst

def set (m : Expiring κ ν) (k : κ) (v : ν) (deadline : Nat) : Expiring κ ν :=
  m.insert k (v, deadline)

/-- Gives a key that has not expired another deadline. -/
def expire (m : Expiring κ ν) (now : Nat) (k : κ) (deadline : Nat) : Expiring κ ν :=
  match m.get now k with
  | some v => m.set k v deadline
  | none => m

theorem get_eq_some_iff :
    get m now k = some v ↔ ∃ deadline, m.lookup k = some (v, deadline) ∧ now < deadline := by
  rw [get, Option.map_eq_some_iff]
  constructor
  · rintro ⟨⟨w, d⟩, he, rfl⟩
    obtain ⟨hl, hd⟩ := Option.filter_eq_some_iff.mp he
    exact ⟨d, hl, of_decide_eq_true hd⟩
  · rintro ⟨d, hl, hd⟩
    exact ⟨(v, d), Option.filter_eq_some_iff.mpr ⟨hl, decide_eq_true hd⟩, rfl⟩

theorem get_set :
    get (set m k v deadline) now j =
      if j = k then if now < deadline then some v else none else get m now j := by
  rw [get, set, Assoc.lookup_insert_ite]
  by_cases hj : j = k
  · by_cases hd : now < deadline <;> simp [hj, hd, Option.filter]
  · rw [if_neg hj, if_neg hj, get]

theorem get_erase : get (m.erase k) now j = if j = k then none else get m now j := by
  rw [get, Assoc.lookup_erase_ite]
  by_cases hj : j = k <;> simp [hj, get]

theorem get_of_later (hle : now ≤ later) (h : get m later k = some v) : get m now k = some v := by
  obtain ⟨d, hl, hd⟩ := get_eq_some_iff.mp h
  exact get_eq_some_iff.mpr ⟨d, hl, by omega⟩

end Expiring
