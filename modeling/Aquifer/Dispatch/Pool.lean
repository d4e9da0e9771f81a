import Mathlib.Algebra.Order.Field.Rat
import Mathlib.Tactic.Linarith
import Mathlib.Tactic.Positivity
import Aquifer.Jobs
import Aquifer.Lib.Assoc
import Aquifer.Lib.Heap
import Aquifer.Lib.Trace

/-! A pool of registered targets: its members in a map by id and in a heap over their virtual
positions, where each member records the slot it is in. -/
namespace Aquifer

/-- `PoolMember`. `floorSince` is none for the zero time; times are in nanoseconds. -/
structure PoolMember where
  id : String := ""
  address : String := ""
  declaredRPS : ℚ := 0
  heartbeatInterval : Int := 0
  lastHeartbeat : Nat := 0
  reputation : ℚ := 1
  virtualPosition : ℚ := 0
  floorSince : Option Nat := none
  heapIndex : Int := 0
deriving DecidableEq, Repr, Inhabited

def PoolMember.weight (m : PoolMember) : ℚ :=
  let w := m.declaredRPS * m.reputation
  if w ≤ 0 then 1 / 1000 else w

theorem PoolMember.weight_pos (m : PoolMember) : 0 < m.weight := by
  unfold weight
  dsimp only
  split
  · norm_num
  · next h => exact not_le.mp h

def PoolMember.Alike (m m' : PoolMember) : Prop := ∃ n, m' = { m with heapIndex := n }

theorem PoolMember.Alike.trans {a b c : PoolMember} : a.Alike b → b.Alike c → a.Alike c := by
  rintro ⟨n, rfl⟩ ⟨m, rfl⟩
  exact ⟨m, rfl⟩

theorem PoolMember.Alike.fields {m m' : PoolMember} : m.Alike m' → m'.id = m.id ∧
    m'.virtualPosition = m.virtualPosition ∧ m'.weight = m.weight ∧
      m'.reputation = m.reputation ∧ m'.floorSince = m.floorSince := by
  rintro ⟨n, rfl⟩
  exact ⟨rfl, rfl, rfl, rfl, rfl⟩

/-- `Pool`, with the members its pointers refer to and the clock it reads. A pointer is the number
of the member it refers to, in the order of their creation. -/
structure Pool where
  now : Nat := 0
  store : Nat → PoolMember := fun _ => default
  next : Nat := 0
  members : Assoc String Nat := ∅
  h : List Nat := []

inductive Pool.Event
  | advance (d : Nat)
  | register (id address : String) (declaredRPS : ℚ) (heartbeatInterval : Int)
  | pick
  | recordSuccess (id : String)
  | recordFailure (id : String)
  | remove (id : String)
  | sweep (missLimit : Int) (order : List String)
deriving DecidableEq

namespace Pool

variable {s t : Pool} {e : Event} {p q i j k : Nat} {id : String}

def reputationFloor : ℚ := 1 / 20

def floorEvictionWindow : Nat := 12000000000

def reputationRecoveryFactor : ℚ := 3 / 2

def heartbeatRecoveryFactor : ℚ := 11 / 10

def modify (s : Pool) (p : Nat) (f : PoolMember → PoolMember) : Pool :=
  { s with store := Function.update s.store p (f (s.store p)) }

def slot (s : Pool) (k : Nat) : Nat := s.h.getD k 0

def position (s : Pool) (p : Nat) : ℚ := (s.store p).virtualPosition

def setIndex (s : Pool) (p : Nat) (k : Int) : Pool := s.modify p fun m => { m with heapIndex := k }

/-- `memberHeap.Swap`. -/
def swap (s : Pool) (i j : Nat) : Pool :=
  let swapped := { s with h := (s.h.set i (s.slot j)).set j (s.slot i) }
  (swapped.setIndex (swapped.slot i) i).setIndex (swapped.slot j) j

theorem store_modify {f : PoolMember → PoolMember} :
    (s.modify p f).store q = if q = p then f (s.store p) else s.store q := by
  simp only [modify, Function.update_apply]

@[simp] theorem h_setIndex {n : Int} : (s.setIndex p n).h = s.h := rfl

theorem position_setIndex {n : Int} : (s.setIndex p n).position q = s.position q := by
  unfold position setIndex
  rw [store_modify]
  split
  · next h => rw [h]
  · rfl

theorem slot_of_lt (hk : k < s.h.length) : s.slot k = s.h[k] := by
  rw [slot, List.getD_eq_getElem?_getD, List.getElem?_eq_getElem hk, Option.getD_some]

theorem slot_mem (hk : k < s.h.length) : s.slot k ∈ s.h := by
  rw [slot_of_lt hk]
  exact List.getElem_mem hk

theorem exists_slot (hp : p ∈ s.h) : ∃ k, k < s.h.length ∧ s.slot k = p := by
  obtain ⟨k, hk, rfl⟩ := List.getElem_of_mem hp
  exact ⟨k, hk, slot_of_lt hk⟩

theorem slot_swap (hi : i < s.h.length) (hj : j < s.h.length) (hk : k < s.h.length) :
    (s.swap i j).slot k = s.slot (Equiv.swap i j k) := by
  rw [Equiv.swap_apply_def]
  simp only [swap, slot, h_setIndex, List.getD_eq_getElem?_getD, List.getElem?_set,
    List.length_set]
  by_cases hkj : j = k
  · subst hkj
    simp only [if_true, hj]
    split
    · next h => simp [h, hi]
    · simp [hi]
  · simp only [if_neg hkj, if_neg (Ne.symm hkj)]
    by_cases hki : i = k
    · subst hki
      simp [hi, hj]
    · simp [hki, Ne.symm hki]

/-- The heap over virtual positions that `container/heap` works on. -/
def memberHeap : Heap.Interface Pool ℚ where
  len s := s.h.length
  key s k := s.position (s.slot k)
  swap := swap
  len_swap := by simp [swap]
  key_swap := by
    intro s i j k hi hj hk
    rw [slot_swap hi hj hk]
    simp only [swap, position_setIndex]
    rfl

/-- `heap.Push`. -/
def push (s : Pool) (p : Nat) : Pool :=
  let pushed := { s.setIndex p s.h.length with h := s.h ++ [p] }
  Heap.up memberHeap pushed (pushed.h.length - 1)

/-- `memberHeap.Pop`. -/
def pop (s : Pool) : Pool :=
  { s.setIndex (s.slot (s.h.length - 1)) (-1) with h := s.h.dropLast }

def startPos (s : Pool) : ℚ := if 0 < s.h.length then s.position (s.slot 0) else 0

/-- The new member of `Register`. -/
def newMember (s : Pool) (id address : String) (declaredRPS : ℚ) (heartbeatInterval : Int) :
    PoolMember :=
  { id, address, declaredRPS, heartbeatInterval, lastHeartbeat := s.now,
    virtualPosition := s.startPos }

def register (s : Pool) (id address : String) (declaredRPS : ℚ) (heartbeatInterval : Int) : Pool :=
  match s.members.lookup id with
  | some p =>
    s.modify p fun m =>
      { m with
        address
        declaredRPS
        heartbeatInterval
        lastHeartbeat := s.now
        reputation := min 1 (m.reputation * heartbeatRecoveryFactor) }
  | none =>
    let created :=
      { s.modify s.next fun _ => s.newMember id address declaredRPS heartbeatInterval with
        next := s.next + 1
        members := s.members.insert id s.next }
    created.push s.next

/-- `Pick`, with the member it returns. -/
def pick (s : Pool) : Pool × Option Nat :=
  if s.h.length = 0 then (s, none)
  else
    let m := s.slot 0
    let advanced := s.modify m fun m =>
      { m with virtualPosition := m.virtualPosition + 1 / m.weight }
    (Heap.fix memberHeap advanced 0, some m)

def removeLocked (s : Pool) (id : String) : Pool :=
  match s.members.lookup id with
  | none => s
  | some p =>
    let index := (s.store p).heapIndex
    let removed :=
      if 0 ≤ index ∧ index < s.h.length then (Heap.toLast memberHeap s index.toNat).pop else s
    { removed with members := removed.members.erase id }

def recordSuccess (s : Pool) (id : String) : Pool :=
  match s.members.lookup id with
  | none => s
  | some p =>
    s.modify p fun m =>
      { m with
        reputation := min 1 (m.reputation * reputationRecoveryFactor)
        floorSince := none }

/-- `RecordFailure`, with whether it evicted the member. -/
def recordFailure (s : Pool) (id : String) : Pool × Bool :=
  match s.members.lookup id with
  | none => (s, false)
  | some p =>
    let halved := s.modify p fun m => { m with reputation := m.reputation * (1 / 2) }
    if (halved.store p).reputation ≤ reputationFloor then
      match (halved.store p).floorSince with
      | none => (halved.modify p fun m => { m with floorSince := some s.now }, false)
      | some since =>
        if since + floorEvictionWindow ≤ s.now then (halved.removeLocked id, true)
        else (halved, false)
    else (halved.modify p fun m => { m with floorSince := none }, false)

/-- Whether a sweep finds the member silent. The product of two durations is an `int64` one. -/
def silent (s : Pool) (missLimit : Int) (m : PoolMember) : Bool :=
  decide (0 < m.heartbeatInterval ∧
    int64 (m.heartbeatInterval * missLimit) < (s.now : Int) - m.lastHeartbeat)

/-- `sweepHeartbeats`, whose loop takes the members in the order given. -/
def sweepHeartbeats (s : Pool) (missLimit : Int) (order : List String) : Pool :=
  order.foldl (fun s id =>
    match s.members.lookup id with
    | none => s
    | some p => if s.silent missLimit (s.store p) then s.removeLocked id else s) s

/-- The loop of a sweep runs over the map, so its order is one of the keys' orders. -/
def step (s : Pool) : Event → Option Pool
  | .advance d => some { s with now := s.now + d }
  | .register id address declaredRPS heartbeatInterval =>
    some (s.register id address declaredRPS heartbeatInterval)
  | .pick => some s.pick.1
  | .recordSuccess id => some (s.recordSuccess id)
  | .recordFailure id => some (s.recordFailure id).1
  | .remove id => some (s.removeLocked id)
  | .sweep missLimit order =>
    if order.Perm s.members.keys then some (s.sweepHeartbeats missLimit order) else none

/-- The same members in other slots. -/
structure Moved (s t : Pool) : Prop where
  now : t.now = s.now
  next : t.next = s.next
  members : t.members = s.members
  perm : t.h.Perm s.h
  store : ∀ p, (s.store p).Alike (t.store p)

def Indexed (s : Pool) : Prop := ∀ k, k < s.h.length → (s.store (s.slot k)).heapIndex = k

theorem Moved.refl (s : Pool) : Moved s s := ⟨rfl, rfl, rfl, .refl _, fun _ => ⟨_, rfl⟩⟩

theorem Moved.trans {u : Pool} (h : Moved s t) (h' : Moved t u) : Moved s u where
  now := h'.now.trans h.now
  next := h'.next.trans h.next
  members := h'.members.trans h.members
  perm := h'.perm.trans h.perm
  store p := (h.store p).trans (h'.store p)

theorem store_setIndex {n : Int} : (s.setIndex p n).store q =
    { s.store q with heapIndex := if q = p then n else (s.store q).heapIndex } := by
  unfold setIndex
  rw [store_modify]
  split
  · next h => rw [h]
  · rfl

theorem moved_swap (hi : i < s.h.length) (hj : j < s.h.length) : Moved s (s.swap i j) where
  now := rfl
  next := rfl
  members := rfl
  perm := by
    simp only [swap, h_setIndex, slot_of_lt hi, slot_of_lt hj]
    exact List.set_set_perm hi hj
  store p := by
    refine ⟨((s.swap i j).store p).heapIndex, ?_⟩
    simp only [swap, store_setIndex]

theorem Indexed.slot_inj (h : Indexed s) (hi : i < s.h.length) (hj : j < s.h.length)
    (heq : s.slot i = s.slot j) : i = j := by
  have := h i hi
  rw [heq, h j hj] at this
  omega

theorem Indexed.nodup (h : Indexed s) : s.h.Nodup := by
  rw [List.nodup_iff_injective_get]
  intro a b hab
  refine Fin.ext (h.slot_inj a.2 b.2 ?_)
  rwa [slot_of_lt a.2, slot_of_lt b.2]

theorem indexed_swap (h : Indexed s) (hi : i < s.h.length) (hj : j < s.h.length) :
    Indexed (s.swap i j) := by
  intro k hk
  have hlen : (s.swap i j).h.length = s.h.length := memberHeap.len_swap
  rw [hlen] at hk
  have hslot := slot_swap hi hj hk
  have hslotj : (s.swap i j).slot j = s.slot i := by
    rw [slot_swap hi hj hj, Equiv.swap_apply_right]
  have hsloti : (s.swap i j).slot i = s.slot j := by
    rw [slot_swap hi hj hi, Equiv.swap_apply_left]
  have hstore : ((s.swap i j).store ((s.swap i j).slot k)).heapIndex =
      if (s.swap i j).slot k = (s.swap i j).slot j then (j : Int)
      else if (s.swap i j).slot k = (s.swap i j).slot i then (i : Int)
      else (s.store ((s.swap i j).slot k)).heapIndex := by
    simp only [swap, store_setIndex]
    rfl
  rw [hstore, hslotj, hsloti, hslot]
  rcases eq_or_ne k j with rfl | hkj
  · rw [Equiv.swap_apply_right, if_pos rfl]
  · rcases eq_or_ne k i with rfl | hki
    · rw [Equiv.swap_apply_left, if_neg fun heq => hkj (h.slot_inj hj hi heq).symm, if_pos rfl]
    · rw [Equiv.swap_apply_of_ne_of_ne hki hkj, if_neg fun heq => hki (h.slot_inj hk hi heq),
        if_neg fun heq => hkj (h.slot_inj hk hj heq)]
      exact h k hk

/-- The map and the heap refer to the same members, under their ids. -/
structure Linked (s : Pool) : Prop where
  indexed : Indexed s
  named : ∀ {id p}, s.members.lookup id = some p ↔ p ∈ s.h ∧ (s.store p).id = id
  fresh : ∀ {p}, p ∈ s.h → p < s.next

/-- `Linked`, with the heap in order. -/
structure Wf (s : Pool) : Prop extends Linked s where
  ordered : Heap.Ordered memberHeap s s.h.length

theorem Linked.moved (h : Linked s) (hm : Moved s t) (ht : Indexed t) : Linked t where
  indexed := ht
  named := by
    intro id p
    rw [hm.members, h.named, hm.perm.mem_iff, (hm.store p).fields.1]
  fresh hp := by
    rw [hm.next]
    exact h.fresh (hm.perm.mem_iff.mp hp)

/-- What the heap's operations keep: they only move members, and the indices follow. -/
def Rearranged (s t : Pool) : Prop := Moved s t ∧ Indexed t

theorem rearranged_swap (h : Rearranged s t) (hi : i < t.h.length) (hj : j < t.h.length) :
    Rearranged s (t.swap i j) :=
  ⟨h.1.trans (moved_swap hi hj), indexed_swap h.2 hi hj⟩

theorem rearranged_fix (h : Indexed s) (hi : i < s.h.length) :
    Rearranged s (Heap.fix memberHeap s i) :=
  Heap.fix_preserves (fun hi hj h => rearranged_swap h hi hj) hi ⟨.refl s, h⟩

theorem rearranged_up (h : Indexed s) (hi : i < s.h.length) :
    Rearranged s (Heap.up memberHeap s i) :=
  Heap.up_preserves (n := s.h.length)
    (fun hn hi hj h => rearranged_swap h (lt_of_lt_of_le hi hn) (lt_of_lt_of_le hj hn))
    le_rfl hi ⟨.refl s, h⟩

/-- The member that is being removed ends in the last slot. -/
theorem rearranged_toLast (h : Indexed s) (hi : i < s.h.length) :
    Rearranged s (Heap.toLast memberHeap s i) ∧
      (Heap.toLast memberHeap s i).slot (s.h.length - 1) = s.slot i := by
  refine Heap.toLast_preserves
    (P := fun t => Rearranged s t ∧ t.slot (s.h.length - 1) = s.slot i) ?_ hi ?_ ?_
  · rintro t a b - ha hb ⟨hr, hlast⟩
    have hlen : t.h.length = s.h.length := hr.1.perm.length_eq
    change a < s.h.length - 1 at ha
    change b < s.h.length - 1 at hb
    have ha' : a < t.h.length := by omega
    have hb' : b < t.h.length := by omega
    refine ⟨rearranged_swap hr ha' hb', ?_⟩
    have hslot := slot_swap ha' hb' (k := s.h.length - 1) (by omega)
    rw [Equiv.swap_apply_of_ne_of_ne (by omega) (by omega), hlast] at hslot
    exact hslot
  · intro heq
    exact ⟨⟨.refl s, h⟩, by rw [heq]; rfl⟩
  · intro hne
    have hlast : s.h.length - 1 < s.h.length := by omega
    refine ⟨⟨moved_swap hi hlast, indexed_swap h hi hlast⟩, ?_⟩
    exact (slot_swap hi hlast hlast).trans (by rw [Equiv.swap_apply_right])

theorem root_le (h : Wf s) (hp : p ∈ s.h) : s.position (s.slot 0) ≤ s.position p := by
  obtain ⟨k, hk, rfl⟩ := exists_slot hp
  exact Heap.root_le h.ordered hk

theorem Rearranged.wf (h : Linked s) (hr : Rearranged s t)
    (ht : Heap.Ordered memberHeap t s.h.length) : Wf t where
  toLinked := h.moved hr.1 hr.2
  ordered := by rwa [hr.1.perm.length_eq]

theorem slot_modify {f : PoolMember → PoolMember} : (s.modify p f).slot k = s.slot k := rfl

/-- A change to a member's other fields. -/
theorem wf_modify {f : PoolMember → PoolMember} (hid : ∀ m, (f m).id = m.id)
    (hindex : ∀ m, (f m).heapIndex = m.heapIndex)
    (hposition : ∀ m, (f m).virtualPosition = m.virtualPosition) (h : Wf s) :
    Wf (s.modify p f) := by
  have hkeep : ∀ q, ((s.modify p f).store q).id = (s.store q).id ∧
      ((s.modify p f).store q).heapIndex = (s.store q).heapIndex ∧
      (s.modify p f).position q = s.position q := by
    intro q
    unfold position
    rw [store_modify]
    split
    · next heq => exact heq ▸ ⟨hid _, hindex _, hposition _⟩
    · exact ⟨rfl, rfl, rfl⟩
  refine ⟨⟨?_, ?_, h.fresh⟩, ?_⟩
  · intro k hk
    exact ((hkeep _).2.1).trans (h.indexed k hk)
  · intro id q
    rw [(hkeep q).1]
    exact h.named
  · intro j hpos hj
    have hle := h.ordered j hpos hj
    simp only [memberHeap, slot_modify, (hkeep _).2.2] at hle ⊢
    exact hle

/-- The members there are in a state that differs in the other pointers. -/
theorem linked_keys {u : Pool} (hh : u.h = s.h) (hstore : ∀ q ∈ s.h, u.store q = s.store q)
    (h : Indexed s) (ho : Heap.Ordered memberHeap s s.h.length) :
    Indexed u ∧ Heap.Ordered memberHeap u u.h.length := by
  have hslot : ∀ k, u.slot k = s.slot k := fun k => by rw [slot, hh, slot]
  constructor
  · intro k hk
    rw [hh] at hk
    rw [hslot, hstore _ (slot_mem hk)]
    exact h k hk
  · intro j hpos hj
    rw [hh] at hj
    have hlt := Heap.parent_lt hpos
    have hle := ho j hpos hj
    simp only [memberHeap, position, hslot] at hle ⊢
    rwa [hstore _ (slot_mem (by omega)), hstore _ (slot_mem hj)]

theorem slot_append (hk : k < s.h.length) {u : Pool} (hu : u.h = s.h ++ [p]) :
    u.slot k = s.slot k := by
  rw [slot, slot, hu, List.getD_eq_getElem?_getD, List.getD_eq_getElem?_getD,
    List.getElem?_append_left hk]

theorem slot_append_last {u : Pool} (hu : u.h = s.h ++ [p]) : u.slot s.h.length = p := by
  rw [slot_of_lt (by simp [hu])]
  simp [hu]

theorem push_spec (h : Indexed s) (ho : Heap.Ordered memberHeap s s.h.length) (hp : p ∉ s.h) :
    Indexed (s.push p) ∧ Heap.Ordered memberHeap (s.push p) (s.push p).h.length ∧
      Moved { s with h := s.h ++ [p] } (s.push p) := by
  set pushed : Pool := { s.setIndex p s.h.length with h := s.h ++ [p] } with hpushed
  have hlen : pushed.h.length = s.h.length + 1 := by simp [hpushed]
  have hstore : ∀ q, pushed.store q = (s.setIndex p s.h.length).store q := fun q => rfl
  have hslot : ∀ {k}, k < s.h.length → pushed.slot k = s.slot k := fun hk => slot_append hk rfl
  have hlast : pushed.slot s.h.length = p := slot_append_last rfl
  have hindexed : Indexed pushed := by
    intro k hk
    rw [hstore, store_setIndex]
    rcases Nat.lt_succ_iff_lt_or_eq.mp (hlen ▸ hk) with hk | rfl
    · have hne : s.slot k ≠ p := fun heq => hp (heq ▸ slot_mem hk)
      rw [hslot hk, if_neg hne]
      exact h k hk
    · rw [hlast, if_pos rfl]
  have hposition : ∀ q, pushed.position q = s.position q := fun q => position_setIndex
  have hkey : ∀ {k}, k < s.h.length → memberHeap.key pushed k = memberHeap.key s k := by
    intro k hk
    change pushed.position (pushed.slot k) = s.position (s.slot k)
    rw [hposition, hslot hk]
  have haround : Heap.Around memberHeap pushed pushed.h.length s.h.length := by
    refine ⟨?_, ?_⟩
    · intro j hpos hj hjne hpar
      have hlt := Heap.parent_lt hpos
      rw [hkey (by omega), hkey (by omega)]
      exact ho j hpos (by omega)
    · intro j hpos hj hpar _
      have hlt := Heap.parent_lt hpos
      omega
  have hbelow : Heap.Below memberHeap pushed pushed.h.length s.h.length := by
    intro j hpos hj hpar
    have hlt := Heap.parent_lt hpos
    omega
  have hpush : s.push p = Heap.up memberHeap pushed s.h.length := by
    rw [push, ← hpushed, hlen, Nat.add_sub_cancel]
  have hup := rearranged_up hindexed (i := s.h.length) (by omega)
  have hmoved : Moved { s with h := s.h ++ [p] } pushed :=
    ⟨rfl, rfl, rfl, .refl _, fun q => ⟨_, store_setIndex⟩⟩
  rw [hpush]
  refine ⟨hup.2, ?_, hmoved.trans hup.1⟩
  rw [hup.1.perm.length_eq]
  exact Heap.up_ordered le_rfl (by omega) haround hbelow

/-- The map still names the members after one was added under an id that was free. -/
theorem Linked.named_insert (h : Linked s) (hlookup : s.members.lookup id = none)
    (hmembers : t.members = s.members.insert id p) (hperm : t.h.Perm (s.h ++ [p]))
    (hnew : (t.store p).id = id) (hold : ∀ q ∈ s.h, (t.store q).id = (s.store q).id)
    {id' : String} : t.members.lookup id' = some q ↔ q ∈ t.h ∧ (t.store q).id = id' := by
  rw [hmembers, Assoc.lookup_insert_ite, hperm.mem_iff, List.mem_append, List.mem_singleton]
  split
  · next heq =>
    subst heq
    constructor
    · rintro ⟨⟩
      exact ⟨.inr rfl, hnew⟩
    · rintro ⟨hq | hq, hid⟩
      · have hlook := h.named.mpr ⟨hq, (hold q hq).symm.trans hid⟩
        rw [hlookup] at hlook
        cases hlook
      · rw [hq]
  · next hne =>
    rw [h.named]
    constructor
    · rintro ⟨hq, hid⟩
      exact ⟨.inl hq, (hold q hq).trans hid⟩
    · rintro ⟨hq | rfl, hid⟩
      · exact ⟨hq, (hold q hq).symm.trans hid⟩
      · exact absurd (hid.symm.trans hnew) hne

/-- `Register` of an id that is not in the pool adds one member. -/
theorem register_new (address : String) (declaredRPS : ℚ) (interval : Int) (h : Wf s)
    (hlookup : s.members.lookup id = none) :
    Wf (s.register id address declaredRPS interval) ∧
      (s.register id address declaredRPS interval).h.Perm (s.h ++ [s.next]) ∧
      (s.newMember id address declaredRPS interval).Alike
        ((s.register id address declaredRPS interval).store s.next) ∧
      (∀ q ∈ s.h, (s.store q).Alike ((s.register id address declaredRPS interval).store q)) ∧
      (s.register id address declaredRPS interval).now = s.now := by
  set created : Pool :=
    { s.modify s.next fun _ => s.newMember id address declaredRPS interval with
      next := s.next + 1
      members := s.members.insert id s.next } with hcreated
  have hregister : s.register id address declaredRPS interval = created.push s.next := by
    rw [register, hlookup]
  have hnotin : s.next ∉ s.h := fun hmem => lt_irrefl _ (h.fresh hmem)
  have hstore : ∀ q, created.store q =
      if q = s.next then s.newMember id address declaredRPS interval else s.store q :=
    fun q => store_modify (s := s) (f := fun _ => s.newMember id address declaredRPS interval)
  have hold : ∀ q ∈ s.h, created.store q = s.store q := by
    intro q hq
    have hne : q ≠ s.next := fun heq => hnotin (heq ▸ hq)
    rw [hstore, if_neg hne]
  obtain ⟨hindexed, hordered⟩ := linked_keys (s := s) (u := created) rfl hold h.indexed h.ordered
  obtain ⟨hindexed, hordered, hmoved⟩ := push_spec (p := s.next) hindexed hordered hnotin
  rw [hregister]
  generalize created.push s.next = t at hindexed hordered hmoved
  have hnew : (s.newMember id address declaredRPS interval).Alike (t.store s.next) := by
    have := hmoved.store s.next
    change (created.store s.next).Alike _ at this
    rwa [hstore, if_pos rfl] at this
  have hsame : ∀ q ∈ s.h, (s.store q).Alike (t.store q) := by
    intro q hq
    have := hmoved.store q
    change (created.store q).Alike _ at this
    rwa [hold q hq] at this
  refine ⟨⟨⟨hindexed, ?_, ?_⟩, hordered⟩, hmoved.perm, hnew, hsame, hmoved.now⟩
  · intro id' q
    exact h.named_insert hlookup hmoved.members hmoved.perm hnew.fields.1
      fun q hq => (hsame q hq).fields.1
  · intro q hq
    have hnext : t.next = s.next + 1 := hmoved.next
    rw [hnext]
    rcases List.mem_append.mp (hmoved.perm.mem_iff.mp hq) with hq | hq
    · exact (h.fresh hq).trans (Nat.lt_succ_self _)
    · rw [List.mem_singleton.mp hq]
      exact Nat.lt_succ_self _

/-- `Pick` of a pool that has members advances the one at the root. -/
theorem pick_spec (h : Wf s) (hlen : s.h.length ≠ 0) :
    Wf s.pick.1 ∧ s.pick.2 = some (s.slot 0) ∧
      Moved (s.modify (s.slot 0) fun m =>
        { m with virtualPosition := m.virtualPosition + 1 / m.weight }) s.pick.1 := by
  set advanced := s.modify (s.slot 0) fun m =>
    { m with virtualPosition := m.virtualPosition + 1 / m.weight } with hadvanced
  have hpick : s.pick = (Heap.fix memberHeap advanced 0, some (s.slot 0)) := by
    rw [pick, if_neg hlen]
  have hzero : 0 < s.h.length := Nat.pos_of_ne_zero hlen
  have hkeep : ∀ q, (advanced.store q).id = (s.store q).id ∧
      (advanced.store q).heapIndex = (s.store q).heapIndex := by
    intro q
    rw [hadvanced, store_modify]
    split
    · next heq => exact heq ▸ ⟨rfl, rfl⟩
    · exact ⟨rfl, rfl⟩
  have hlinked : Linked advanced := by
    refine ⟨fun k hk => (hkeep _).2.trans (h.indexed k hk), ?_, h.fresh⟩
    intro id q
    rw [(hkeep q).1]
    exact h.named
  have hkey : ∀ {k}, 0 < k → k < s.h.length → memberHeap.key advanced k = memberHeap.key s k := by
    intro k hk hlt
    change (advanced.store (s.slot k)).virtualPosition = (s.store (s.slot k)).virtualPosition
    have hne : s.slot k ≠ s.slot 0 := fun heq => by
      have := h.indexed.slot_inj hlt hzero heq
      omega
    rw [hadvanced, store_modify, if_neg hne]
  have haround : Heap.Around memberHeap advanced s.h.length 0 := by
    refine ⟨?_, fun j _ _ _ hpos => absurd hpos (lt_irrefl 0)⟩
    intro j hpos hj _ hpar
    have hlt := Heap.parent_lt hpos
    rw [hkey (by omega) (by omega), hkey hpos hj]
    exact h.ordered j hpos hj
  rw [hpick]
  have hfix := rearranged_fix hlinked.indexed (i := 0) hzero
  exact ⟨hfix.wf hlinked (Heap.fix_ordered hzero haround), rfl, hfix.1⟩

theorem slot_pop (hk : k < s.h.length - 1) : s.pop.slot k = s.slot k := by
  have hlen : k < s.pop.h.length := by simpa [pop] using hk
  rw [slot_of_lt hlen, slot_of_lt (by omega)]
  simp [pop]

theorem store_pop (hend : s.slot (s.h.length - 1) = p) : s.pop.store q =
    { s.store q with heapIndex := if q = p then -1 else (s.store q).heapIndex } := by
  rw [← hend]
  exact store_setIndex (s := s)

theorem pop_spec (h : Indexed s) (ho : Heap.Ordered memberHeap s (s.h.length - 1))
    (hlen : s.h.length ≠ 0) (hend : s.slot (s.h.length - 1) = p) :
    Indexed s.pop ∧ Heap.Ordered memberHeap s.pop s.pop.h.length ∧ s.h.Perm (p :: s.pop.h) := by
  have hpop : s.pop.h.length = s.h.length - 1 := by simp [pop]
  refine ⟨?_, ?_, ?_⟩
  · intro k hk
    rw [hpop] at hk
    have hne : s.slot k ≠ p := by
      rw [← hend]
      intro heq
      have := h.slot_inj (by omega) (by omega) heq
      omega
    rw [slot_pop hk, store_pop hend, if_neg hne]
    exact h k (by omega)
  · intro j hpos hj
    rw [hpop] at hj
    have hlt := Heap.parent_lt hpos
    have hposition : ∀ q, s.pop.position q = s.position q := fun q => by
      unfold position
      rw [store_pop hend]
    change s.pop.position (s.pop.slot _) ≤ s.pop.position (s.pop.slot _)
    rw [hposition, hposition, slot_pop (by omega), slot_pop hj]
    exact ho j hpos hj
  · have hne : s.h ≠ [] := fun hnil => hlen (by rw [hnil]; rfl)
    have happend : s.h.dropLast ++ [p] = s.h := by
      conv_rhs => rw [← List.dropLast_append_getLast hne]
      rw [List.getLast_eq_getElem, ← slot_of_lt (by omega), hend]
    rw [← List.perm_comm]
    conv_rhs => rw [← happend]
    exact (List.perm_append_singleton p _).symm

/-- The map still names the members after one was taken out. -/
theorem Linked.named_erase (h : Linked s) (hlookup : s.members.lookup id = some p)
    (hmembers : t.members = s.members.erase id) (hperm : s.h.Perm (p :: t.h))
    (hsame : ∀ q, (t.store q).id = (s.store q).id) {id' : String} :
    t.members.lookup id' = some q ↔ q ∈ t.h ∧ (t.store q).id = id' := by
  have hnotin : p ∉ t.h := (List.nodup_cons.mp (hperm.nodup_iff.mp h.indexed.nodup)).1
  have hid := (h.named.mp hlookup).2
  rw [hmembers, Assoc.lookup_erase_ite, hsame]
  split
  · next heq =>
    subst heq
    constructor
    · rintro ⟨⟩
    · rintro ⟨hq, hqid⟩
      have hlook := h.named.mpr ⟨hperm.mem_iff.mpr (List.mem_cons_of_mem _ hq), hqid⟩
      rw [hlookup] at hlook
      cases hlook
      exact absurd hq hnotin
  · next hne =>
    rw [h.named, hperm.mem_iff, List.mem_cons]
    constructor
    · rintro ⟨rfl | hq, hqid⟩
      · exact absurd (hqid.symm.trans hid) hne
      · exact ⟨hq, hqid⟩
    · rintro ⟨hq, hqid⟩
      exact ⟨.inr hq, hqid⟩

theorem removeLocked_spec (h : Wf s) (hlookup : s.members.lookup id = some p) :
    Wf (s.removeLocked id) ∧ s.h.Perm (p :: (s.removeLocked id).h) ∧
      (∀ q, (s.store q).Alike ((s.removeLocked id).store q)) ∧
      (s.removeLocked id).members = s.members.erase id ∧ (s.removeLocked id).now = s.now := by
  obtain ⟨k, hk, hslot⟩ := exists_slot (h.named.mp hlookup).1
  have hindex : (s.store p).heapIndex = k := hslot ▸ h.indexed k hk
  set last := Heap.toLast memberHeap s k with hlast
  have hremove : s.removeLocked id = { last.pop with members := last.pop.members.erase id } := by
    rw [removeLocked, hlookup]
    dsimp only
    rw [hindex, if_pos (by omega), Int.toNat_natCast]
  obtain ⟨hr, hend⟩ := rearranged_toLast h.indexed hk
  rw [← hlast] at hr hend
  have hlen : last.h.length = s.h.length := hr.1.perm.length_eq
  have hend : last.slot (last.h.length - 1) = p := by rw [hlen, hend, hslot]
  have hordered : Heap.Ordered memberHeap last (last.h.length - 1) :=
    hlen ▸ Heap.toLast_ordered hk h.ordered
  obtain ⟨hindexed, hordered, hperm⟩ := pop_spec hr.2 hordered (by omega) hend
  have hperm : s.h.Perm (p :: last.pop.h) := hr.1.perm.symm.trans hperm
  have hsame : ∀ q, (s.store q).Alike (last.pop.store q) :=
    fun q => (hr.1.store q).trans ⟨_, store_pop hend⟩
  have hmembers : last.pop.members.erase id = s.members.erase id :=
    congrArg (AList.erase id) hr.1.members
  rw [hremove]
  refine ⟨⟨⟨hindexed, ?_, ?_⟩, hordered⟩, hperm, hsame, hmembers, hr.1.now⟩
  · intro id' q
    exact h.named_erase (t := { last.pop with members := last.pop.members.erase id }) hlookup
      hmembers hperm fun q => (hsame q).fields.1
  · intro q hq
    change q < last.next
    rw [hr.1.next]
    exact h.fresh (hperm.mem_iff.mpr (List.mem_cons_of_mem _ hq))

end Pool

end Aquifer
