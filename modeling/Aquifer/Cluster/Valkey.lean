import Mathlib.Data.Rat.Defs
import Mathlib.Algebra.Order.Field.Rat
import Aquifer.Lib.Expiring
import Aquifer.Lib.Trace
import Aquifer.Cluster.Ranking

/-! The assignments of scopes to instances that all nodes of a cluster keep in one Valkey. Each
script and each transaction is one step; the clock is the server's, in milliseconds. -/
namespace Aquifer

/-- The instance keys, the assignment keys by the hash of their scope, and the assignments sets of
the instances: the score of each scope in the set of an instance. -/
structure Valkey where
  clock : Nat := 0
  instances : Expiring String Member := ∅
  assignment : Expiring String String := ∅
  assignments : Assoc (String × String) Nat := ∅

/-- A candidate as the assign script sees it. -/
structure Load where
  candidate : Member
  used : Int
  capacity : Int
deriving DecidableEq, Repr

namespace Valkey

variable {hash : String → String} {s t : Valkey} {h A B : String} {m c : Member} {ttl : Nat}

/-- `active_member` of an instance's payload. -/
def activeMember (s : Valkey) (id : String) : Option Member :=
  (s.instances.get s.clock id).filter fun m => !m.state.leaving

def zadd (s : Valkey) (id scope : String) (score : Nat) : Valkey :=
  { s with assignments := s.assignments.insert (id, scope) score }

def zrem (s : Valkey) (id scope : String) : Valkey :=
  { s with assignments := s.assignments.erase (id, scope) }

def delAssignments (s : Valkey) (id : String) : Valkey :=
  { s with assignments := s.assignments.keep fun k _ => k.1 ≠ id }

/-- `ZREMRANGEBYSCORE` of what has expired in the set of an instance. -/
def purge (s : Valkey) (id : String) : Valkey :=
  { s with assignments := s.assignments.keep fun k score => k.1 ≠ id || s.clock < score }

def zcard (s : Valkey) (id : String) : Nat :=
  (s.assignments.entries.filter fun e => e.1.1 = id).length

/-- What the script makes of a capacity: the payload's own, which is left out of it if zero, or
else the one the caller passes. -/
def capacityOf (payload candidate : Member) : Int :=
  max (if payload.capacity = 0 then roomOf candidate else payload.capacity) 1

/-- The loop over the candidates: the set of each active one is purged and its load taken. -/
def survey (s : Valkey) : List Member → Valkey × List Load
  | [] => (s, [])
  | c :: cs =>
    match s.activeMember c.id with
    | none => survey s cs
    | some payload =>
      let purged := s.purge c.id
      let rest := survey purged cs
      (rest.1, ⟨c, max payload.activeUsers (purged.zcard c.id), capacityOf payload c⟩ :: rest.2)

/-- The least loaded, the first of them on a tie. -/
def least : List Load → Option Load
  | [] => none
  | x :: xs => some (xs.foldl (fun b y =>
      if (y.used : ℚ) / y.capacity < (b.used : ℚ) / b.capacity then y else b) x)

/-- The candidate the script selects; with `strict` only one below its capacity. -/
def select (strict : Bool) (loads : List Load) : Option Load :=
  match loads.find? fun x => x.used < x.capacity with
  | some x => some x
  | none => if strict then none else least loads

/-- The script from its loop on: the scope has no assignment. -/
def place (s : Valkey) (scope : String) (candidates : List Member) (ttl : Nat) (strict : Bool) :
    Valkey × Option Member :=
  let (s, loads) := s.survey candidates
  match select strict loads with
  | none => (s, none)
  | some x =>
    let id := x.candidate.id
    ({ s with assignment := s.assignment.set scope id (s.clock + ttl) }.zadd id scope
    (s.clock + ttl),
      s.instances.get s.clock id)

/-- `assignClusterScopeScript`. -/
def assignScript (s : Valkey) (scope : String) (candidates : List Member) (ttl : Nat)
    (strict : Bool) : Valkey × Option Member :=
  match s.assignment.get s.clock scope with
  | some id =>
    match s.activeMember id with
    | some payload =>
      ({ s with assignment := s.assignment.expire s.clock scope (s.clock + ttl) }.zadd id scope
        (s.clock + ttl), some payload)
    | none =>
      place ({ s with assignment := s.assignment.erase scope }.zrem id scope) scope candidates ttl
        strict
  | none => place s scope candidates ttl strict

/-- `Assign`, which never asks for a strict answer. -/
def assign (hash : String → String) (s : Valkey) (scope : String) (candidates : List Member)
    (ttl : Nat) : Valkey × Option Member :=
  if candidates = [] then (s, none) else s.assignScript (hash scope) candidates ttl false

/-- One scope of `Renew`. -/
def renew (hash : String → String) (s : Valkey) (scope nodeID : String) (ttl : Nat) : Valkey :=
  if s.assignment.get s.clock (hash scope) = some nodeID then
    { s with assignment := s.assignment.expire s.clock (hash scope) (s.clock + ttl) }.zadd nodeID
      (hash scope) (s.clock + ttl)
  else s

def release (hash : String → String) (s : Valkey) (scope nodeID : String) : Valkey :=
  if s.assignment.get s.clock (hash scope) = some nodeID then
    { s with assignment := s.assignment.erase (hash scope) }.zrem nodeID (hash scope)
  else s

def heartbeat (s : Valkey) (m : Member) (ttl : Nat) : Valkey :=
  { s with instances := s.instances.set m.id m (s.clock + ttl) }

def removeInstance (s : Valkey) (id : String) : Valkey :=
  { s with instances := s.instances.erase id }.delAssignments id

/-- The transaction at the end of `Members`. The ids are those it found without a payload, which
may have one again by now. -/
def cleanup (s : Valkey) (stale : List String) : Valkey := stale.foldl delAssignments s

inductive Event
  | tick (ms : Nat)
  | heartbeat (m : Member) (ttl : Nat)
  | assign (scope : String) (candidates : List Member) (ttl : Nat)
  | renew (scope nodeID : String) (ttl : Nat)
  | release (scope nodeID : String)
  | removeInstance (id : String)
  | cleanup (stale : List String)
deriving DecidableEq, Repr

def step (hash : String → String) (s : Valkey) : Event → Option Valkey
  | .tick ms => some { s with clock := s.clock + ms }
  | .heartbeat m ttl => some (s.heartbeat m ttl)
  | .assign scope candidates ttl => some (assign hash s scope candidates ttl).1
  | .renew scope nodeID ttl => some (renew hash s scope nodeID ttl)
  | .release scope nodeID => some (release hash s scope nodeID)
  | .removeInstance id => some (s.removeInstance id)
  | .cleanup stale => some (s.cleanup stale)

/-! ### What the loop over the candidates finds -/

/-- How many unexpired entries the set of an instance has. -/
def held (s : Valkey) (id : String) : Nat :=
  (s.assignments.entries.filter fun e => e.1.1 = id && s.clock < e.2).length

def load (s : Valkey) (c : Member) : Option Load :=
  (s.activeMember c.id).map fun payload =>
    ⟨c, max payload.activeUsers (s.held c.id), capacityOf payload c⟩

/-- All that a purge does is to drop entries that have expired. -/
structure Purged (s t : Valkey) : Prop where
  clock : t.clock = s.clock
  instances : t.instances = s.instances
  assignment : t.assignment = s.assignment
  mem : ∀ k e, t.assignments.lookup k = some e → s.assignments.lookup k = some e
  kept : ∀ k e, s.assignments.lookup k = some e → s.clock < e → t.assignments.lookup k = some e
  held : ∀ id, t.held id = s.held id

theorem Purged.refl (s : Valkey) : Purged s s :=
  ⟨rfl, rfl, rfl, fun _ _ h => h, fun _ _ h _ => h, fun _ => rfl⟩

theorem Purged.trans {u : Valkey} (h₁ : Purged s t) (h₂ : Purged t u) : Purged s u where
  clock := h₂.clock.trans h₁.clock
  instances := h₂.instances.trans h₁.instances
  assignment := h₂.assignment.trans h₁.assignment
  mem k e h := h₁.mem k e (h₂.mem k e h)
  kept k e h hlive := h₂.kept k e (h₁.kept k e h hlive) (h₁.clock ▸ hlive)
  held id := (h₂.held id).trans (h₁.held id)

theorem held_purge (id : String) : (s.purge A).held id = s.held id := by
  simp only [held, purge, Assoc.keep, List.filter_filter]
  congr 1
  refine List.filter_congr ?_
  intro e _
  by_cases hlive : s.clock < e.2 <;> simp [hlive]

theorem zcard_purge : (s.purge A).zcard A = s.held A := by
  simp only [zcard, held, purge, Assoc.keep, List.filter_filter]
  congr 1
  refine List.filter_congr ?_
  intro e _
  by_cases hid : e.1.1 = A <;> simp [hid]

theorem purged_purge (s : Valkey) (id : String) : Purged s (s.purge id) where
  clock := rfl
  instances := rfl
  assignment := rfl
  mem k e h := by
    rw [purge, Assoc.lookup_keep] at h
    exact (Option.filter_eq_some_iff.mp h).1
  kept k e h hlive := by
    rw [purge, Assoc.lookup_keep]
    exact Option.filter_eq_some_iff.mpr ⟨h, by simp [hlive]⟩
  held := held_purge

theorem Purged.load (h : Purged s t) : t.load = s.load := by
  funext c
  rw [Valkey.load, Valkey.load, activeMember, activeMember, h.clock, h.instances, h.held]

theorem purged_survey (s : Valkey) (cs : List Member) : Purged s (s.survey cs).1 := by
  induction cs generalizing s with
  | nil => exact .refl s
  | cons c cs ih =>
    rw [survey]
    split
    · exact ih s
    · exact (purged_purge s c.id).trans (ih (s.purge c.id))

theorem loads_survey (s : Valkey) (cs : List Member) : (s.survey cs).2 = cs.filterMap s.load := by
  induction cs generalizing s with
  | nil => rfl
  | cons c cs ih =>
    cases hc : s.activeMember c.id with
    | none =>
      have hload : s.load c = none := by simp [load, hc]
      rw [survey, hc, List.filterMap_cons, hload]
      exact ih s
    | some payload =>
      have hload : s.load c =
        some ⟨c, max payload.activeUsers (s.held c.id), capacityOf payload c⟩ := by
        simp [load, hc]
      rw [survey, hc, List.filterMap_cons, hload]
      dsimp only
      rw [ih, zcard_purge, (purged_purge s c.id).load]

theorem least_mem {loads : List Load} {x : Load} (h : least loads = some x) : x ∈ loads := by
  cases loads with
  | nil => cases h
  | cons y ys =>
    cases h
    have : ∀ (ys : List Load) (b : Load), ys.foldl (fun b y =>
        if (y.used : ℚ) / y.capacity < (b.used : ℚ) / b.capacity then y else b) b ∈ b :: ys := by
      intro ys
      induction ys with
      | nil =>
        intro b
        exact List.mem_singleton_self b
      | cons y ys ih =>
        intro b
        rw [List.foldl_cons]
        rcases List.mem_cons.mp (ih (if (y.used : ℚ) / y.capacity < (b.used : ℚ) / b.capacity then y
          else b)) with heq | hmem
        · rw [heq]
          split <;> simp
        · exact List.mem_cons_of_mem _ (List.mem_cons_of_mem _ hmem)
    exact this ys y

/-- The script selects a candidate below its capacity, or none of them is. -/
theorem select_cases {strict : Bool} {loads : List Load} {x : Load}
    (h : select strict loads = some x) :
    x ∈ loads ∧ (x.used < x.capacity ∨ ∀ y ∈ loads, y.capacity ≤ y.used) := by
  unfold select at h
  split at h
  · rename_i y hfind
    cases h
    exact ⟨List.mem_of_find?_eq_some hfind, .inl (by simpa using List.find?_some hfind)⟩
  · rename_i hfind
    split at h
    · cases h
    · refine ⟨least_mem h, .inr ?_⟩
      intro y hy
      simpa using List.find?_eq_none.mp hfind y hy

end Valkey

end Aquifer
