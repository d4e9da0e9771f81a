import Mathlib.Data.Rat.Floor
import Mathlib.Tactic.Linarith
import Aquifer.Cluster.Router

/-! How many users one rebalance pass hands back, and to whom. -/
namespace Aquifer.Router

variable {c : RouterConfig} {s t : Router} {e : Event} {es : List Event} {pass : Pass}
variable {key : String} {m : Member}

/-- What one turn of the pass reads of a router that other work goes on in: the router when the key
is ranked, the router under the scope's lock, and whether the store fails. -/
structure Look where
  ranking : Router
  check : Router
  fails : Bool

/-- A user whose assignment the pass releases, with the router that ranked it. -/
structure HandOff where
  ranking : Router
  key : String
  member : Member

/-- One turn of the loop: the user it releases, and the pass that goes on if it does. A store that
fails may have released the user all the same. -/
def turn (c : RouterConfig) (pass : Pass) (look : Look) : Option HandOff × Option Pass :=
  match pass.idle with
  | [] => (none, none)
  | key :: rest =>
    if pass.excess ≤ 0 ∨ rebalanceMaxPerPass ≤ pass.released then (none, none)
    else
      match look.ranking.firstChoice c pass key with
      | none => (none, some { pass with idle := rest })
      | some m =>
        if look.check.handOffCandidate c key = false then (none, some { pass with idle := rest })
        else
          (some ⟨look.ranking, key, m⟩,
            if look.fails then none
            else some { pass with
              idle := rest
              excess := pass.excess - 1
              handed := pass.handed.insert m.id ((pass.handed.lookup m.id).getD 0 + 1)
              released := pass.released + 1 })

def handOffs (c : RouterConfig) : Pass → List Look → List HandOff
  | _, [] => []
  | pass, look :: looks =>
    (turn c pass look).1.toList ++ (turn c pass look).2.elim [] (handOffs c · looks)

/-! ### The turns of the router's own steps -/

/-- A `handBack` of the router is a turn that ranks and checks at once. -/
theorem handBack_eq_turn (hsync : s.sync = .rebalancing pass) (fails : Bool) :
    (s.handBack c pass fails).sync = (turn c pass ⟨s, s, fails⟩).2.elim .resting .rebalancing ∧
      s.releases c (.handBack fails) = (turn c pass ⟨s, s, fails⟩).1.map HandOff.key := by
  simp only [handBack, releases, turn, hsync]
  cases pass.idle with
  | nil => exact ⟨rfl, rfl⟩
  | cons key rest =>
    dsimp only
    by_cases hstop : pass.excess ≤ 0 ∨ rebalanceMaxPerPass ≤ pass.released
    · simp only [if_pos hstop]
      exact ⟨rfl, rfl⟩
    · simp only [if_neg hstop, preferred]
      cases s.firstChoice c pass key with
      | none => exact ⟨rfl, rfl⟩
      | some m =>
        cases s.handOffCandidate c key with
        | false => simp [Option.filter]
        | true => cases fails <;> simp [Option.filter]

theorem sync_completeLocalJob : (s.completeLocalJob key).sync = s.sync := by
  unfold completeLocalJob
  split <;> rfl

theorem sync_trackLocalJob : (s.trackLocalJob key).sync = s.sync := by
  unfold trackLocalJob
  split <;> rfl

/-- The rest of the node's work leaves a pass alone, and a node that rests goes on resting until the
next synchronisation. -/
theorem sync_step (hsync : ∀ keys, s.sync ≠ .releasing keys) (hone : e ≠ .syncState)
    (hother : ∀ fails, e ≠ .handBack fails) (hstep : s.step c e = some t) : t.sync = s.sync := by
  cases e with
  | tick elapsed | attach jobs | setState state | arrive job =>
    cases hstep
    rfl
  | route job | refuse job | drop r =>
    obtain ⟨-, ⟨⟩⟩ := Option.ite_none_right_eq_some.mp hstep
    rfl
  | track r =>
    obtain ⟨-, ⟨⟩⟩ := Option.ite_none_right_eq_some.mp hstep
    exact sync_trackLocalJob
  | answer job | complete job =>
    obtain ⟨-, ⟨⟩⟩ := Option.ite_none_right_eq_some.mp hstep
    exact sync_completeLocalJob
  | enqueue job =>
    cases hstep
    exact sync_trackLocalJob
  | syncState => exact absurd rfl hone
  | release =>
    simp only [step] at hstep
    split at hstep
    · next h => exact absurd h (hsync _)
    · cases hstep
  | members found =>
    simp only [step] at hstep
    split at hstep
    · next h => exact absurd h (hsync _)
    · next h => exact absurd h (hsync _)
    · cases hstep
  | handBack fails => exact absurd rfl (hother fails)

def looks (c : RouterConfig) : Router → List Event → List Look
  | _, [] => []
  | s, .handBack fails :: es => ⟨s, s, fails⟩ :: (s.step c (.handBack fails)).elim [] (looks c · es)
  | s, e :: es => (s.step c e).elim [] (looks c · es)

def handedBack (c : RouterConfig) : Router → List Event → List String
  | _, [] => []
  | s, .handBack fails :: es =>
    (s.releases c (.handBack fails)).toList ++
      (s.step c (.handBack fails)).elim [] (handedBack c · es)
  | s, e :: es => (s.step c e).elim [] (handedBack c · es)

/-- The users that a node's own steps release until its next synchronisation are those of the turns
of its pass, and none if it rests. -/
theorem handedBack_of_sync {o : Option Pass} (hsync : s.sync = o.elim .resting .rebalancing)
    (hone : ∀ e ∈ es, e ≠ .syncState) :
    handedBack c s es = (o.elim [] (handOffs c · (looks c s es))).map HandOff.key := by
  induction es generalizing s o with
  | nil => cases o <;> rfl
  | cons e es ih =>
    have hrest : ∀ e ∈ es, e ≠ .syncState := fun e he => hone e (List.mem_cons_of_mem _ he)
    by_cases hturn : ∃ fails, e = .handBack fails
    · obtain ⟨fails, rfl⟩ := hturn
      cases o with
      | none =>
        rw [Option.elim_none] at hsync
        simp [handedBack, releases, step, hsync]
      | some pass =>
        rw [Option.elim_some] at hsync ⊢
        obtain ⟨hnext, hreleased⟩ := handBack_eq_turn (c := c) hsync fails
        have hstep : s.step c (.handBack fails) = some (s.handBack c pass fails) := by
          simp only [step, hsync]
        rw [handedBack, looks, handOffs, hstep, hreleased, List.map_append]
        congr 1
        · cases (turn c pass ⟨s, s, fails⟩).1 <;> rfl
        · exact ih hnext hrest
    · have hother : ∀ fails, e ≠ .handBack fails := fun fails he => hturn ⟨fails, he⟩
      rw [handedBack.eq_3 _ _ _ _ hother, looks.eq_3 _ _ _ _ hother]
      cases hstep : s.step c e with
      | none => cases o <;> rfl
      | some u =>
        have hkeep : u.sync = s.sync :=
          sync_step (by cases o <;> simp [hsync]) (hone e List.mem_cons_self) hother hstep
        exact ih (hkeep.trans hsync) hrest

theorem handedBack_eq (hsync : s.sync = .rebalancing pass) (hone : ∀ e ∈ es, e ≠ .syncState) :
    handedBack c s es = (handOffs c pass (looks c s es)).map HandOff.key :=
  handedBack_of_sync (o := some pass) hsync hone

/-! ### The bounds of a pass -/

/-- The member is the first-ranked one and another node, and with `load` users handed to it before
it is below the fair share `total / active` and below its capacity. -/
structure HandOff.Within (c : RouterConfig) (active total load : Int) (e : HandOff) : Prop where
  first : ∃ rest, e.ranking.view.rankedOwners c.hash e.ranking.view.members.rows e.key
    (fun _ => false) e.ranking.now = e.member :: rest
  other : e.member.id ≠ c.self
  share : (e.member.activeUsers + load) * active < total
  room : e.member.activeUsers + load < roomOf e.member

theorem firstChoice_within (h : s.firstChoice c pass key = some m) :
    HandOff.Within c pass.active pass.total ((pass.handed.lookup m.id).getD 0) ⟨s, key, m⟩ := by
  unfold firstChoice at h
  split at h
  · cases h
  · next m' rest hrank =>
    dsimp only at h
    split at h
    · cases h
    · next hroom =>
      cases h
      obtain ⟨hself, hshare, hcapacity⟩ := by simpa only [not_or, not_le] using hroom
      exact ⟨⟨rest, hrank⟩, hself, hshare, hcapacity⟩

/-- What a turn leaves: nothing, the pass without its first key, or a user released and the pass
one user further. -/
theorem turn_cases (c : RouterConfig) (pass : Pass) (look : Look) :
    turn c pass look = (none, none) ∨
    (∃ rest, turn c pass look = (none, some { pass with idle := rest })) ∨
    ∃ e next, turn c pass look = (some e, next) ∧ 0 < pass.excess ∧
      pass.released < rebalanceMaxPerPass ∧
      e.Within c pass.active pass.total ((pass.handed.lookup e.member.id).getD 0) ∧
      ∀ pass' ∈ next, pass'.active = pass.active ∧ pass'.total = pass.total ∧
        pass'.excess = pass.excess - 1 ∧ pass'.released = pass.released + 1 ∧
        ∀ id, (pass'.handed.lookup id).getD 0 =
          (pass.handed.lookup id).getD 0 + if e.member.id = id then 1 else 0 := by
  unfold turn
  split
  · exact .inl rfl
  · next key rest _ =>
    split
    · exact .inl rfl
    · next hgo =>
      obtain ⟨hexcess, hreleased⟩ := by simpa only [not_or, not_le] using hgo
      split
      · exact .inr (.inl ⟨rest, rfl⟩)
      · next m hchoice =>
        split
        · exact .inr (.inl ⟨rest, rfl⟩)
        · refine .inr (.inr ⟨_, _, rfl, hexcess, hreleased, firstChoice_within hchoice, ?_⟩)
          intro pass' hpass
          split at hpass
          · cases hpass
          · cases hpass
            refine ⟨rfl, rfl, rfl, rfl, fun id => ?_⟩
            dsimp only
            rw [Assoc.lookup_insert_ite]
            by_cases hid : id = m.id
            · rw [if_pos hid, if_pos hid.symm, hid]
              rfl
            · rw [if_neg hid, if_neg (Ne.symm hid), add_zero]

def handedTo (id : String) (log : List HandOff) : Nat := log.countP fun e => e.member.id = id

theorem handOffs_length (c : RouterConfig) (pass : Pass) (looks : List Look) :
    (handOffs c pass looks).length ≤ pass.excess.toNat ∧
      (handOffs c pass looks).length ≤ rebalanceMaxPerPass - pass.released := by
  induction looks generalizing pass with
  | nil => exact ⟨Nat.zero_le _, Nat.zero_le _⟩
  | cons look looks ih =>
    rw [handOffs]
    rcases turn_cases c pass look with hturn | ⟨rest, hturn⟩ |
      ⟨e, next, hturn, hexcess, hreleased, -, hnext⟩
    · rw [hturn]
      exact ⟨Nat.zero_le _, Nat.zero_le _⟩
    · rw [hturn]
      exact ih { pass with idle := rest }
    · rw [hturn]
      cases next with
      | none =>
        simp only [Option.toList, Option.elim, List.append_nil, List.length_singleton]
        omega
      | some pass' =>
        obtain ⟨-, -, hex, hrel, -⟩ := hnext pass' rfl
        have hrest := ih pass'
        simp only [Option.toList, Option.elim, List.length_append, List.length_singleton]
        omega

/-- Every user released is within the bounds, counting those that its member was handed before. -/
theorem handOffs_within (pass : Pass) {looks : List Look} {before after : List HandOff}
    {e : HandOff}
    (h : handOffs c pass looks = before ++ e :: after) :
    e.Within c pass.active pass.total
      ((pass.handed.lookup e.member.id).getD 0 + handedTo e.member.id before) := by
  induction looks generalizing pass before with
  | nil => simp [handOffs] at h
  | cons look looks ih =>
    rw [handOffs] at h
    rcases turn_cases c pass look with hturn | ⟨rest, hturn⟩ |
      ⟨e', next, hturn, -, -, hwithin, hnext⟩
    · rw [hturn] at h
      simp at h
    · rw [hturn] at h
      exact ih { pass with idle := rest } h
    · rw [hturn] at h
      cases before with
      | nil =>
        obtain ⟨rfl, -⟩ := List.cons.inj h
        simpa [handedTo] using hwithin
      | cons b before =>
        obtain ⟨rfl, hrest⟩ := List.cons.inj h
        cases next with
        | none => simp at hrest
        | some pass' =>
          obtain ⟨hactive, htotal, -, -, hhanded⟩ := hnext pass' rfl
          have hwithin := ih pass' hrest
          rw [hactive, htotal, hhanded] at hwithin
          have hcount : (handedTo e.member.id (e' :: before) : Int) =
              handedTo e.member.id before + if e'.member.id = e.member.id then 1 else 0 := by
            unfold handedTo
            rw [List.countP_cons]
            split <;> simp_all
          rw [hcount]
          convert hwithin using 1
          omega

/-- The members that share the users, as a pass begins. -/
def sharing (s : Router) : List Member :=
  s.view.members.rows.filter (s.view.eligible (fun _ => false) s.now)

/-- `fair`. -/
def fairShare (s : Router) : ℚ := ((s.sharing.map Member.activeUsers).sum : Int) / s.sharing.length

/-- The users that `rebalance` releases, from its snapshot on. -/
def rebalanced (c : RouterConfig) (s : Router) (looks : List Look) : List HandOff :=
  (s.rebalance c).elim [] (handOffs c · looks)

theorem rebalance_eq_some (h : s.rebalance c = some pass) :
    s.nodeState.leaving = false ∧ 2 ≤ pass.active ∧ pass.active = s.sharing.length ∧
      pass.total = (s.sharing.map Member.activeUsers).sum ∧
      3 * pass.total < 2 * s.activeScopeCount c * pass.active ∧
      pass.excess = s.activeScopeCount c - (pass.total + pass.active - 1) / pass.active ∧
      pass.released = 0 ∧ pass.handed = ∅ := by
  unfold rebalance at h
  dsimp only at h
  split at h
  · cases h
  · next hgo =>
    cases h
    simp only [not_or, not_lt, not_le, Bool.not_eq_true] at hgo
    exact ⟨hgo.1, hgo.2.1, rfl, rfl, hgo.2.2.2, rfl, rfl, rfl⟩

theorem ceil_div_le (total : Int) {active : Int} (hactive : 0 < active) :
    ⌈(total : ℚ) / active⌉ ≤ (total + active - 1) / active := by
  have hpos : (0 : ℚ) < active := by exact_mod_cast hactive
  rw [Int.ceil_le, div_le_iff₀ hpos]
  have hdiv := Int.mul_ediv_add_emod (total + active - 1) active
  have hmod := Int.emod_lt_of_pos (total + active - 1) hactive
  have hle : total ≤ (total + active - 1) / active * active := by
    rw [mul_comm]
    omega
  exact_mod_cast hle

/-- A rebalance pass releases users only on a node that is not leaving and holds more than one and a
half times the fair share. It releases at most ten, and leaves the node the fair share, rounded up.
Each user's first-ranked node is another one, which is told to hold at most one more than the fair
share, and no more than its capacity. -/
theorem rebalance_pass_bounds (c : RouterConfig) (s : Router) (looks : List Look)
    (h : s.rebalanced c looks ≠ []) :
    s.nodeState.leaving = false ∧ 3 / 2 * s.fairShare < s.activeScopeCount c ∧
      (s.rebalanced c looks).length ≤ 10 ∧
      ⌈s.fairShare⌉ ≤ (s.activeScopeCount c : Int) - (s.rebalanced c looks).length ∧
      ∀ before e after, s.rebalanced c looks = before ++ e :: after →
        (∃ rest, e.ranking.view.rankedOwners c.hash e.ranking.view.members.rows e.key
          (fun _ => false) e.ranking.now = e.member :: rest) ∧ e.member.id ≠ c.self ∧
        e.member.activeUsers + ((handedTo e.member.id before : ℚ) + 1) ≤ s.fairShare + 1 ∧
        e.member.activeUsers + ((handedTo e.member.id before : Int) + 1) ≤ roomOf e.member := by
  unfold rebalanced at h ⊢
  cases hpass : s.rebalance c with
  | none =>
    rw [hpass] at h
    exact absurd rfl h
  | some pass =>
    rw [hpass] at h
    dsimp only [Option.elim] at h ⊢
    obtain ⟨hstate, htwo, hactive, htotal, habove, hexcess, hreleased, hhanded⟩ :=
      rebalance_eq_some hpass
    have hshare : s.fairShare = (pass.total : ℚ) / pass.active := by
      rw [fairShare, hactive, htotal]
      rfl
    have hpos : (0 : ℚ) < pass.active := by exact_mod_cast (by omega : 0 < pass.active)
    obtain ⟨hlength, hmax⟩ := handOffs_length c pass looks
    have hsome : 0 < (handOffs c pass looks).length := List.length_pos_of_ne_nil h
    rw [hshare]
    refine ⟨hstate, ?_, ?_, ?_, ?_⟩
    · have habove : (3 * pass.total : ℚ) < 2 * s.activeScopeCount c * pass.active := by
        exact_mod_cast habove
      rw [← mul_div_assoc, div_lt_iff₀ hpos]
      linarith
    · rw [hreleased] at hmax
      exact hmax
    · have hceil := ceil_div_le pass.total (by omega : 0 < pass.active)
      omega
    · intro before e after heq
      have hwithin := handOffs_within pass heq
      rw [hhanded] at hwithin
      obtain ⟨hfirst, hother, hshare, hroom⟩ := hwithin
      simp only [AList.lookup_empty, Option.getD_none, zero_add] at hshare hroom
      refine ⟨hfirst, hother, ?_, by omega⟩
      have hshare : ((e.member.activeUsers + handedTo e.member.id before : ℚ)) * pass.active <
          pass.total := by exact_mod_cast hshare
      have hless := (lt_div_iff₀ hpos).mpr hshare
      linarith

/-- A node with four users, next to one with none that every key prefers. -/
def crowded : Router where
  now := 50
  localScopes := ["a", "b", "c", "d"].foldl (fun m user => m.insert user {}) ∅
  view := ⟨(Table.empty.insert ⟨"n1", "", .active, 4, 0⟩).insert ⟨"n2", "", .active, 0, 0⟩, ∅⟩

/-- It hands two of its users over, and keeps the fair share of two. -/
theorem crowded_hands_over_two :
    (crowded.rebalanced ⟨"n1", id, 100, 10⟩ (List.replicate 4 ⟨crowded, crowded, false⟩)).length =
      2 ∧
      crowded.fairShare = 2 ∧ ⌈crowded.fairShare⌉ ≤ (4 : Int) - 2 := by
  have hlength : (crowded.rebalanced ⟨"n1", id, 100, 10⟩
      (List.replicate 4 ⟨crowded, crowded, false⟩)).length = 2 := by decide +kernel
  have hmine : crowded.activeScopeCount ⟨"n1", id, 100, 10⟩ = 4 := by decide +kernel
  have hbounds := rebalance_pass_bounds ⟨"n1", id, 100, 10⟩ crowded
    (List.replicate 4 ⟨crowded, crowded, false⟩) (List.ne_nil_of_length_pos (by omega))
  rw [hlength, hmine] at hbounds
  exact ⟨hlength, by decide +kernel, hbounds.2.2.2.1⟩

end Aquifer.Router
