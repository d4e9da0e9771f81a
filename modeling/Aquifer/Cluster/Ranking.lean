import Mathlib.Data.List.Sort
import Mathlib.Data.Prod.Lex
import Mathlib.Data.String.Basic
import Aquifer.Lib.Assoc
import Aquifer.Lib.Table

/-! The members a router knows, and the order it prefers them in for a key. -/
namespace Aquifer

/-- A node's lifecycle state as a member record has it; `unset` is any other text. -/
inductive NodeState
  | active
  | draining
  | offline
  | unset
deriving DecidableEq, Repr

def NodeState.leaving (s : NodeState) : Bool := s = .draining ∨ s = .offline

structure Member where
  id : String
  address : String
  state : NodeState := .unset
  activeUsers : Int := 0
  capacity : Int := 0
deriving DecidableEq, Repr

def defaultClusterMaxActiveUsers : Int := 100

/-- How many users a member has room for. -/
def roomOf (m : Member) : Int := if m.capacity ≤ 0 then defaultClusterMaxActiveUsers else m.capacity

/-- The member map of a router and until when it has pruned some of the members. Times are in
milliseconds. -/
structure View where
  members : Table Member Member.id Member.id
  prunedUntil : Assoc String Nat := ∅

namespace View

variable {hash : String → String} {v w : View} {key : String} {excluded : String → Bool}
  {now : Nat} {order : List Member} {m : Member}

def pruned (v : View) (now : Nat) (id : String) : Bool :=
  (v.prunedUntil.lookup id).any (now < ·)

def expirePruned (v : View) (now : Nat) : View :=
  { v with prunedUntil := v.prunedUntil.keep fun _ u => now < u }

def eligible (v : View) (excluded : String → Bool) (now : Nat) (m : Member) : Bool :=
  !(excluded m.id || v.pruned now m.id || m.state.leaving)

/-- `region.Score`, over the hex digest of a text. -/
def score (hash : String → String) (candidate key : String) : String :=
  hash (candidate ++ ":" ++ key)

/-- The comparison `rankedOwners` sorts by: the higher score, among equal scores the lower id. -/
def less (hash : String → String) (key : String) (a b : Member) : Bool :=
  if score hash a.id key = score hash b.id key then a.id < b.id
  else score hash b.id key < score hash a.id key

/-- `sort.Slice` by `less`. -/
def sortOwners (hash : String → String) (key : String) (members : List Member) : List Member :=
  members.insertionSort fun a b => less hash key b a = false

/-- `rankedOwners`, where `order` is the order in which the map yields its members. -/
def rankedOwners (hash : String → String) (v : View) (order : List Member) (key : String)
    (excluded : String → Bool) (now : Nat) : List Member :=
  if key = "" then []
  else sortOwners hash key (order.filter ((v.expirePruned now).eligible excluded now))

theorem pruned_expirePruned {id : String} :
    (v.expirePruned now).pruned now id = v.pruned now id := by
  rw [pruned, pruned, expirePruned, Assoc.lookup_keep]
  cases v.prunedUntil.lookup id with
  | none => rfl
  | some u =>
    by_cases h : now < u <;> simp [Option.filter, h]

@[simp] theorem eligible_expirePruned :
    (v.expirePruned now).eligible excluded now = v.eligible excluded now := by
  funext m
  rw [eligible, eligible, pruned_expirePruned]

/-! ### Sorting -/

/-- What a member is ranked by: its score, the highest first, then its id. -/
def rank (hash : String → String) (key id : String) : Stringᵒᵈ ×ₗ String :=
  toLex (OrderDual.toDual (score hash id key), id)

theorem less_eq_false_iff {a b : Member} :
    less hash key b a = false ↔ rank hash key a.id ≤ rank hash key b.id := by
  rw [rank, rank, Prod.Lex.toLex_le_toLex, OrderDual.toDual_lt_toDual, less]
  by_cases h : score hash b.id key = score hash a.id key
  · simp only [h, if_true, decide_eq_false_iff_not, not_lt, lt_irrefl, false_or, true_and]
  · simp only [if_neg h, decide_eq_false_iff_not, not_lt]
    constructor
    · intro hle
      exact .inl (lt_of_le_of_ne hle h)
    · rintro (hlt | ⟨heq, -⟩)
      · exact hlt.le
      · exact absurd (OrderDual.toDual.injective heq).symm h

theorem rank_injective : Function.Injective (rank hash key) := by
  intro a b h
  exact congrArg Prod.snd (toLex.injective h)

theorem perm_sortOwners (l : List Member) : (sortOwners hash key l).Perm l :=
  List.perm_insertionSort _ l

theorem pairwise_sortOwners (l : List Member) :
    (sortOwners hash key l).Pairwise fun a b => less hash key b a = false := by
  have htotal : Std.Total fun a b : Member => less hash key b a = false := by
    constructor
    intro a b
    simp only [less_eq_false_iff]
    exact le_total _ _
  have htrans : IsTrans Member fun a b => less hash key b a = false := by
    constructor
    intro a b c hab hbc
    rw [less_eq_false_iff] at hab hbc ⊢
    exact hab.trans hbc
  exact List.pairwise_insertionSort _ l

/-- However the sort works, its answer is the only one: a list of members with different ids has
one order in which no member is less than one before it. -/
theorem eq_sortOwners {l l' : List Member} (hn : (l.map Member.id).Nodup) (hp : l'.Perm l)
    (hs : l'.Pairwise fun a b => less hash key b a = false) : l' = sortOwners hash key l := by
  refine (hp.trans (perm_sortOwners l).symm).eq_of_pairwise ?_ hs (pairwise_sortOwners l)
  intro a b ha hb hab hba
  rw [less_eq_false_iff] at hab hba
  have hmem : b ∈ l := (perm_sortOwners l).mem_iff.mp hb
  have hid : a.id = b.id := rank_injective (hab.antisymm hba)
  exact List.inj_on_of_nodup_map hn (hp.mem_iff.mp ha) hmem hid

theorem sortOwners_perm {l l' : List Member} (hn : (l.map Member.id).Nodup) (hp : l'.Perm l) :
    sortOwners hash key l' = sortOwners hash key l :=
  eq_sortOwners hn ((perm_sortOwners l').trans hp) (pairwise_sortOwners l')

theorem sortOwners_filter {l : List Member} (hn : (l.map Member.id).Nodup) (p : Member → Bool) :
    (sortOwners hash key l).filter p = sortOwners hash key (l.filter p) :=
  eq_sortOwners (hn.sublist (List.filter_sublist.map _)) ((perm_sortOwners l).filter p)
    ((pairwise_sortOwners l).filter p)

/-- The order of the ids is the order of the ids alone, whatever else the records say. -/
theorem map_id_sortOwners {l l' : List Member} (hp : (l.map Member.id).Perm (l'.map Member.id)) :
    (sortOwners hash key l).map Member.id = (sortOwners hash key l').map Member.id := by
  have hids : ((sortOwners hash key l).map Member.id).Perm
      ((sortOwners hash key l').map Member.id) :=
    ((perm_sortOwners l).map _).trans (hp.trans ((perm_sortOwners l').map _).symm)
  have hsorted : ∀ x, ((sortOwners hash key x).map Member.id).Pairwise
      fun a b => rank hash key a ≤ rank hash key b := by
    intro x
    refine List.pairwise_map.mpr ((pairwise_sortOwners x).imp ?_)
    intro a b h
    exact less_eq_false_iff.mp h
  refine hids.eq_of_pairwise ?_ (hsorted l) (hsorted l')
  intro a b _ _ hab hba
  exact rank_injective (hab.antisymm hba)

/-! ### Members that leave and come back -/

def candidates (v : View) (excluded : String → Bool) (now : Nat) : List Member :=
  v.members.rows.filter (v.eligible excluded now)

def remove (v : View) (ids : List String) : View :=
  { v with members := v.members.filter fun m => m.id ∉ ids }

def setState (v : View) (ids : List String) (state : NodeState) : View :=
  { v with
    members := v.members.map (fun m => if m.id ∈ ids then { m with state } else m) fun m => by
      split <;> exact ⟨rfl, rfl⟩ }

/-- `PruneMember`, of a member other than the node itself. -/
def pruneMember (v : View) (deadline : Nat) (id : String) : View :=
  { v with prunedUntil := v.prunedUntil.insert id deadline }

/-- Four ways for members to leave a ranking, and each by its ids. -/
structure Departure where
  removed : List String := []
  drained : List String := []
  pruned : List String := []
  excluded : List String := []
  state : NodeState := .draining
  deadline : Nat

def Departure.gone (d : Departure) (id : String) : Bool :=
  id ∈ d.removed ++ d.drained ++ d.pruned ++ d.excluded

def depart (v : View) (d : Departure) : View :=
  d.pruned.foldl (fun v id => v.pruneMember d.deadline id)
    ((v.remove d.removed).setState d.drained d.state)

theorem members_prune (ids : List String) (deadline : Nat) (v : View) :
    (ids.foldl (fun v id => v.pruneMember deadline id) v).members = v.members := by
  induction ids generalizing v with
  | nil => rfl
  | cons id ids ih => exact ih (v.pruneMember deadline id)

theorem pruned_prune (ids : List String) {deadline : Nat} (h : now < deadline) (v : View)
    (id : String) :
    (ids.foldl (fun v id => v.pruneMember deadline id) v).pruned now id =
      (decide (id ∈ ids) || v.pruned now id) := by
  induction ids generalizing v with
  | nil => simp
  | cons x ids ih =>
    have hx : (v.pruneMember deadline x).pruned now id = (decide (id = x) || v.pruned now id) := by
      rw [pruned, pruneMember, Assoc.lookup_insert_ite]
      by_cases hid : id = x <;> simp [hid, h, pruned]
    rw [List.foldl_cons, ih, hx]
    by_cases hid : id = x <;> simp [hid]

theorem eligible_depart {d : Departure} (h : now < d.deadline) :
    (v.depart d).eligible (fun id => excluded id || decide (id ∈ d.excluded)) now m =
      (v.eligible excluded now m && decide (m.id ∉ d.pruned ++ d.excluded)) := by
  rw [eligible, eligible, depart, pruned_prune _ h]
  have hkept : ((v.remove d.removed).setState d.drained d.state).pruned now m.id =
      v.pruned now m.id := rfl
  rw [hkept]
  by_cases hp : m.id ∈ d.pruned <;> by_cases he : m.id ∈ d.excluded <;> simp [hp, he]

theorem candidates_depart {d : Departure} (hleave : d.state.leaving = true)
    (h : now < d.deadline) :
    (v.depart d).candidates (fun id => excluded id || decide (id ∈ d.excluded)) now =
      (v.candidates excluded now).filter fun m => !d.gone m.id := by
  have hrows : (v.depart d).members.rows =
      (v.members.rows.filter fun m => m.id ∉ d.removed).map
        fun m => if m.id ∈ d.drained then { m with state := d.state } else m := by
    rw [depart, members_prune]
    rfl
  have hkeeps : ∀ m : Member,
      ((v.depart d).eligible (fun id => excluded id || decide (id ∈ d.excluded)) now
          (if m.id ∈ d.drained then { m with state := d.state } else m) &&
        decide (m.id ∉ d.removed)) = (!d.gone m.id && v.eligible excluded now m) := by
    intro m
    rw [eligible_depart h]
    by_cases hd : m.id ∈ d.drained
    · simp [hd, eligible, hleave, Departure.gone]
    · simp only [if_neg hd, Departure.gone]
      by_cases hr : m.id ∈ d.removed <;> simp [hr, hd, Bool.and_comm]
  rw [candidates, hrows, List.filter_map, List.filter_filter, candidates, List.filter_filter]
  refine (congrArg (List.map _) (List.filter_congr fun m _ => hkeeps m)).trans ?_
  -- a drained member is not ranked, so the ones that are left are as they were
  refine (List.map_congr_left ?_).trans (List.map_id _)
  intro m hm
  have hgone : d.gone m.id = false := by
    have := (List.mem_filter.mp hm).2
    simp only [Bool.and_eq_true, Bool.not_eq_true'] at this
    exact this.1
  have hd : m.id ∉ d.drained := by
    intro hd
    simp [Departure.gone, hd] at hgone
  rw [if_neg hd, id]

theorem nodup_candidates : ((v.candidates excluded now).map Member.id).Nodup :=
  v.members.ids_nodup.sublist (List.filter_sublist.map _)

theorem rankedOwners_eq (hkey : key ≠ "") (horder : order.Perm v.members.rows) :
    rankedOwners hash v order key excluded now =
      sortOwners hash key (v.candidates excluded now) := by
  rw [rankedOwners, if_neg hkey, eligible_expirePruned]
  exact sortOwners_perm nodup_candidates (horder.filter _)

theorem mem_rankedOwners (hkey : key ≠ "") (horder : order.Perm v.members.rows) :
    m ∈ rankedOwners hash v order key excluded now ↔
      m ∈ v.members.rows ∧ v.eligible excluded now m = true := by
  rw [rankedOwners_eq hkey horder, (perm_sortOwners _).mem_iff]
  exact List.mem_filter

/-- A ranking depends on nothing but the ids of the members that are active, not pruned and not
excluded; when members leave it keeps the order of the others. -/
theorem rankedOwners_keeps_order (hash : String → String) (key : String) (v : View)
    (excluded : String → Bool) (now : Nat) :
    (∀ order order', order.Perm v.members.rows → order'.Perm v.members.rows →
      rankedOwners hash v order key excluded now = rankedOwners hash v order' key excluded now) ∧
    (∀ (w : View) (excluded' : String → Bool) (now' : Nat) (order order' : List Member),
      order.Perm v.members.rows → order'.Perm w.members.rows →
      (((v.candidates excluded now).map Member.id).Perm
      ((w.candidates excluded' now').map Member.id) →
        (rankedOwners hash v order key excluded now).map Member.id =
          (rankedOwners hash w order' key excluded' now').map Member.id) ∧
      ((v.candidates excluded now).Perm (w.candidates excluded' now') →
        rankedOwners hash v order key excluded now =
          rankedOwners hash w order' key excluded' now')) ∧
    ∀ (d : Departure) (order order' : List Member), d.state.leaving = true → now < d.deadline →
      order.Perm v.members.rows → order'.Perm (v.depart d).members.rows →
      rankedOwners hash (v.depart d) order' key
          (fun id => excluded id || decide (id ∈ d.excluded)) now =
        (rankedOwners hash v order key excluded now).filter (fun m => !d.gone m.id) ∧
      ∀ first, (rankedOwners hash v order key excluded now).head? = some first →
        d.gone first.id = false →
        (rankedOwners hash (v.depart d) order' key
          (fun id => excluded id || decide (id ∈ d.excluded)) now).head? = some first := by
  by_cases hkey : key = ""
  · simp [rankedOwners, hkey]
  refine ⟨?_, ?_, ?_⟩
  · intro order order' ho ho'
    rw [rankedOwners_eq hkey ho, rankedOwners_eq hkey ho']
  · intro w excluded' now' order order' ho ho'
    rw [rankedOwners_eq hkey ho, rankedOwners_eq hkey ho']
    refine ⟨map_id_sortOwners, ?_⟩
    intro hsame
    exact sortOwners_perm nodup_candidates hsame
  · intro d order order' hleave hd ho ho'
    have hfilter : rankedOwners hash (v.depart d) order' key
        (fun id => excluded id || decide (id ∈ d.excluded)) now =
        (rankedOwners hash v order key excluded now).filter (fun m => !d.gone m.id) := by
      rw [rankedOwners_eq hkey ho, rankedOwners_eq hkey ho', candidates_depart hleave hd]
      exact (sortOwners_filter nodup_candidates _).symm
    refine ⟨hfilter, ?_⟩
    intro first hfirst hstays
    rw [hfilter]
    cases hr : rankedOwners hash v order key excluded now with
    | nil => simp [hr] at hfirst
    | cons x xs =>
      have hx : x = first := by simpa [hr] using hfirst
      subst hx
      simp [hstays]

def trio : View where
  members := ⟨[⟨"a", "http://a", .active, 0, 2⟩, ⟨"b", "http://b", .active, 0, 2⟩,
    ⟨"c", "http://c", .active, 0, 2⟩], by decide, by decide⟩

/-- The ranking without `b` is the ranking with it, `b` left out: `c` still comes
first. -/
theorem trio_without_b :
    rankedOwners id (trio.depart { drained := ["b"], deadline := 1 })
        (trio.depart { drained := ["b"], deadline := 1 }).members.rows "k" (fun _ => false) 0 =
      [⟨"c", "http://c", .active, 0, 2⟩, ⟨"a", "http://a", .active, 0, 2⟩] := by
  have hkeeps := (rankedOwners_keeps_order id "k" trio (fun _ => false) 0).2.2
    { drained := ["b"], deadline := 1 } trio.members.rows
    (trio.depart { drained := ["b"], deadline := 1 }).members.rows (by decide) (by decide)
    (List.Perm.refl _) (List.Perm.refl _)
  simp only [List.not_mem_nil, decide_false, Bool.or_false] at hkeeps
  rw [hkeeps.1]
  decide +kernel

end View

end Aquifer
