import Aquifer.Cluster.Assignments

/-! Which member a request is sent to, and how it is sent on when members cannot be reached. -/
namespace Aquifer

/-- What forwarding a request depends on: the hash, this node, the members it knows when the request
arrives and the time then. -/
structure ForwardConfig where
  hash : String → String
  self : String
  key : String
  view : View
  now : Nat
  pruneTTL : Nat
  assignmentTTL : Nat

/-- How contacting a member ends: no request was built, the member was not reached, it has the
request but did not answer in time, it answered that it is draining, or it answered. -/
inductive Forward.Reply
  | malformed
  | unreachable
  | silent
  | draining
  | answered
deriving DecidableEq, Repr

/-- What a pass of the loop finds: the milliseconds since the request arrived, the shared store if
there is one (in any state it can reach) and whether it answers, whether this node is draining, and
how the member contacted replies. -/
structure Forward.Attempt where
  elapsed : Nat := 0
  store : Option { s : Valkey // s.Sound } := none
  storeFails : Bool := false
  draining : Bool := false
  reply : Forward.Reply

/-- What `forwardClusterRequest` ends in. -/
inductive Forward.Outcome
  | here
  | badRequest
  | timeout (owner : String)
  | relayed (owner : String)
  | unavailable
deriving DecidableEq, Repr

/-- The loop: the node's view of the members, the ids tried and the outcome once there is one. -/
structure Forward where
  view : View
  tried : List String := []
  outcome : Option Forward.Outcome := none

/-- The active instance that the scope's live key names. -/
def Valkey.assigned (hash : String → String) (s : Valkey) (key : String) : Option Member :=
  ((s.assignment.get s.clock (hash key)).bind s.activeMember).filter fun m =>
    m.id ≠ "" ∧ m.address ≠ ""

theorem Valkey.assigned_eq_some_iff {hash : String → String} {s : Valkey} {key : String}
    {m : Member} : s.assigned hash key = some m ↔
      (∃ id, s.assignment.get s.clock (hash key) = some id ∧ s.activeMember id = some m) ∧
        m.id ≠ "" ∧ m.address ≠ "" := by
  rw [Valkey.assigned, Option.filter_eq_some_iff, Option.bind_eq_some_iff, decide_eq_true_iff]

namespace View

variable {hash : String → String} {v : View} {key : String} {excluded : String → Bool}
  {now ttl : Nat} {store : Option Valkey} {storeFails : Bool} {owner m : Member}

def resolveOwner (hash : String → String) (v : View) (key : String) (excluded : String → Bool)
    (now ttl : Nat) (store : Option Valkey) (storeFails : Bool) : Option Member :=
  match rankedOwners hash v v.members.rows key excluded now with
  | [] => none
  | first :: rest =>
    match store with
    | none => some first
    | some s =>
      if storeFails then some first
      else
        match (Valkey.assign hash s key (first :: rest) ttl).2 with
        | none => some first
        | some assigned =>
          if assigned.id ≠ "" ∧ assigned.address ≠ "" then some assigned else some first

theorem not_excluded_of_ranked (hm : m ∈ v.rankedOwners hash v.members.rows key excluded now) :
    excluded m.id = false := by
  have hkey : key ≠ "" := by
    rintro rfl
    simp [rankedOwners] at hm
  have := ((mem_rankedOwners hkey (List.Perm.refl _)).mp hm).2
  simp only [eligible, Bool.not_eq_true', Bool.or_eq_false_iff] at this
  exact this.1.1

/-- The owner is one of the members ranked here, or the one the store has assigned. -/
theorem resolveOwner_cases (hsound : ∀ s ∈ store, s.Sound)
    (h : v.resolveOwner hash key excluded now ttl store storeFails = some owner) :
    (∃ m ∈ v.rankedOwners hash v.members.rows key excluded now, m.id = owner.id) ∨
      ∃ s ∈ store, storeFails = false ∧ s.assigned hash key = some owner := by
  unfold resolveOwner at h
  cases hr : v.rankedOwners hash v.members.rows key excluded now with
  | nil =>
    rw [hr] at h
    cases h
  | cons first rest =>
    have hfirst : ∀ m, some first = some m → ∃ x ∈ first :: rest, x.id = m.id := by
      intro m hm
      cases hm
      exact ⟨first, List.mem_cons_self, rfl⟩
    simp only [hr] at h
    cases store with
    | none => exact .inl (hfirst _ h)
    | some s =>
      dsimp only at h
      split at h
      · exact .inl (hfirst _ h)
      · rename_i hup
        split at h
        · exact .inl (hfirst _ h)
        · rename_i assigned hassign
          split at h
          · rename_i hplain
            cases h
            simp only [Valkey.assign, if_neg (List.cons_ne_nil first rest)] at hassign
            have hcases := Valkey.assignScript_cases s (hash key) (first :: rest) ttl
            rw [hassign] at hcases
            generalize (Valkey.assignScript s (hash key) (first :: rest) ttl false).1 = t at hcases
            cases hcases with
            | kept hkey hactive =>
              exact .inr ⟨s, rfl, by simpa using hup,
                Valkey.assigned_eq_some_iff.mpr ⟨⟨_, hkey, hactive⟩, hplain⟩⟩
            | @placed u x _ _ _ hmem _ hget =>
              obtain ⟨m, hm, hx⟩ := List.mem_filterMap.mp hmem
              obtain ⟨rfl, -⟩ := Valkey.load_eq_some hx
              exact .inl ⟨x.candidate, hm, ((hsound s rfl).id_eq hget).symm⟩
          · exact .inl (hfirst _ h)

theorem resolveOwner_of_assigned {s : Valkey} (hd : s.assigned hash key = some m)
    (hr : v.rankedOwners hash v.members.rows key excluded now ≠ []) :
    v.resolveOwner hash key excluded now ttl (some s) false = some m := by
  obtain ⟨⟨id, hkey, hactive⟩, hplain⟩ := Valkey.assigned_eq_some_iff.mp hd
  unfold resolveOwner
  cases hlist : v.rankedOwners hash v.members.rows key excluded now with
  | nil => exact absurd hlist hr
  | cons first rest =>
    simp [Valkey.assign, Valkey.assignScript, hkey, hactive, hplain]

/-- `ResolveOwner` keeps off the excluded members exactly if it is not the shared store that names
one of them. -/
theorem resolveOwner_avoids_iff (hsound : ∀ s ∈ store, s.Sound)
    (hr : v.rankedOwners hash v.members.rows key excluded now ≠ []) :
    (∀ owner, v.resolveOwner hash key excluded now ttl store storeFails = some owner →
        excluded owner.id = false) ↔
      ∀ s ∈ store, storeFails = false → ∀ m ∈ s.assigned hash key, excluded m.id = false := by
  constructor
  · rintro h s rfl rfl m hd
    exact h m (resolveOwner_of_assigned hd hr)
  · intro h owner howner
    rcases resolveOwner_cases hsound howner with ⟨m, hm, hid⟩ | ⟨s, hs, hup, hd⟩
    · rw [← hid]
      exact not_excluded_of_ranked hm
    · exact h s hs hup owner hd

end View

namespace Forward

variable {c : ForwardConfig} {s t : Forward} {a : Attempt} {as : List Attempt}

/-- `RankedOwners` when the request arrives. -/
def known (c : ForwardConfig) : List Member :=
  c.view.rankedOwners c.hash c.view.members.rows c.key (fun _ => false) c.now

def maxAttempts (c : ForwardConfig) : Nat := (known c).length + 1

def start (c : ForwardConfig) : Forward where
  view := c.view
  outcome := if known c = [] then some .here else none

/-- `MarkUnavailable` as far as the node's own view goes; the release in the store may fail. -/
def markUnavailable (c : ForwardConfig) (v : View) (id : String) (now : Nat) : View :=
  if id = c.self ∨ c.pruneTTL = 0 then v else v.pruneMember (now + c.pruneTTL) id

def excluded (s : Forward) (id : String) : Bool := id ∈ s.tried

def resolve (c : ForwardConfig) (s : Forward) (a : Attempt) : Option Member :=
  s.view.resolveOwner c.hash c.key s.excluded (c.now + a.elapsed) c.assignmentTTL
    (a.store.map Subtype.val) a.storeFails

def skip (c : ForwardConfig) (s : Forward) (a : Attempt) (id : String) : Forward :=
  { s with
    view := markUnavailable c s.view id (c.now + a.elapsed)
    tried := s.tried ++ [id] }

def step (c : ForwardConfig) (s : Forward) (a : Attempt) : Option Forward :=
  if s.outcome.isSome then none
  else if maxAttempts c ≤ s.tried.length then some { s with outcome := some .unavailable }
  else
    match resolve c s a with
    | none => some { s with outcome := some .unavailable }
    | some owner =>
      if owner.id = c.self then
        if a.draining then some (skip c s a owner.id) else some { s with outcome := some .here }
      else
        match a.reply with
        | .unreachable | .draining => some (skip c s a owner.id)
        | .malformed =>
          some { s with tried := s.tried ++ [owner.id], outcome := some .badRequest }
        | .silent =>
          some { s with tried := s.tried ++ [owner.id], outcome := some (.timeout owner.id) }
        | .answered =>
          some { s with tried := s.tried ++ [owner.id], outcome := some (.relayed owner.id) }

def ranked (c : ForwardConfig) (s : Forward) (a : Attempt) : List Member :=
  s.view.rankedOwners c.hash s.view.members.rows c.key s.excluded (c.now + a.elapsed)

/-- No member has come out of its pruning since the request arrived, and an active instance that the
store's live key names is one of the members the pass ranks. -/
def Clear (c : ForwardConfig) (s : Forward) (a : Attempt) : Prop :=
  (∀ m ∈ ranked c s a, m ∈ known c) ∧
    ∀ st ∈ a.store, a.storeFails = false → ∀ m ∈ st.val.assigned c.hash c.key,
      ∃ x ∈ ranked c s a, x.id = m.id

/-- What a pass does: it ends the loop, or tries one more owner in vain. -/
inductive Passed (c : ForwardConfig) (s : Forward) (a : Attempt) : Forward → Prop
  | spent : maxAttempts c ≤ s.tried.length → Passed c s a { s with outcome := some .unavailable }
  | none : resolve c s a = none → Passed c s a { s with outcome := some .unavailable }
  | here {owner : Member} : resolve c s a = some owner →
      Passed c s a { s with outcome := some .here }
  | skipped {owner : Member} : resolve c s a = some owner → s.tried.length < maxAttempts c →
      Passed c s a (skip c s a owner.id)
  | ended {owner : Member} {o : Outcome} : resolve c s a = some owner →
      s.tried.length < maxAttempts c → o ≠ .unavailable →
      Passed c s a { s with tried := s.tried ++ [owner.id], outcome := some o }

theorem step_cases (h : step c s a = some t) : s.outcome = none ∧ Passed c s a t := by
  unfold step at h
  split at h
  · cases h
  · rename_i hopen
    refine ⟨by simpa using hopen, ?_⟩
    split at h
    · rename_i hspent
      cases h
      exact .spent hspent
    · rename_i hleft
      split at h
      · rename_i hnone
        cases h
        exact .none hnone
      · rename_i owner howner
        split at h
        · split at h <;> cases h
          · exact .skipped howner (by omega)
          · exact .here howner
        · split at h <;> cases h
          · exact .skipped howner (by omega)
          · exact .skipped howner (by omega)
          · exact .ended howner (by omega) (by simp)
          · exact .ended howner (by omega) (by simp)
          · exact .ended howner (by omega) (by simp)

theorem step_isSome (hopen : s.outcome = none) (a : Attempt) : (step c s a).isSome = true := by
  unfold step
  rw [if_neg (by simp [hopen])]
  split
  · rfl
  · split
    · rfl
    · split
      · split <;> rfl
      · split <;> rfl

/-- Passes are bounded by the owners tried and the end of the loop. -/
theorem length_le (hrun : Trace.exec (step c) s as = some t) :
    as.length + s.tried.length + s.outcome.toList.length ≤
      t.tried.length + t.outcome.toList.length := by
  induction as generalizing s with
  | nil =>
    cases hrun
    simp
  | cons a as ih =>
    obtain ⟨u, hu, hrest⟩ := Trace.exec_cons.mp hrun
    obtain ⟨hopen, hp⟩ := step_cases hu
    have hnext := ih hrest
    rw [hopen]
    cases hp <;> simp [skip, hopen] at hnext ⊢ <;> omega

theorem tried_le_step (hs : s.tried.length ≤ maxAttempts c) (h : step c s a = some t) :
    t.tried.length ≤ maxAttempts c := by
  obtain ⟨-, hp⟩ := step_cases h
  cases hp with
  | spent _ => exact hs
  | none _ => exact hs
  | here _ => exact hs
  | skipped _ hlt => simpa [skip] using Nat.succ_le_of_lt hlt
  | ended _ hlt _ => simpa using Nat.succ_le_of_lt hlt

/-- Only known members are tried, each once; only tried members are pruned; and when no owner is
found every known member was tried. -/
structure Orderly (c : ForwardConfig) (s : Forward) : Prop where
  members : s.view.members = c.view.members
  nodup : s.tried.Nodup
  known : s.tried ⊆ (known c).map Member.id
  pruned : ∀ now id, s.view.pruned now id = true → c.view.pruned now id = true ∨ id ∈ s.tried
  reported : s.outcome = some .unavailable → ∀ m ∈ Forward.known c, m.id ∈ s.tried

theorem orderly_start (c : ForwardConfig) : Orderly c (start c) := by
  refine ⟨rfl, List.nodup_nil, List.nil_subset _, fun _ _ h => .inl h, ?_⟩
  intro h
  simp only [start] at h
  split at h <;> cases h

theorem resolve_known (hclear : Clear c s a) {owner : Member} (h : resolve c s a = some owner) :
    owner.id ∉ s.tried ∧ owner.id ∈ (known c).map Member.id := by
  obtain ⟨x, hx, hid⟩ : ∃ x ∈ ranked c s a, x.id = owner.id := by
    have hsound : ∀ st ∈ a.store.map Subtype.val, st.Sound := by
      intro st hst
      obtain ⟨st', -, rfl⟩ := Option.mem_map.mp hst
      exact st'.property
    rcases View.resolveOwner_cases hsound h with hr | ⟨st, hst, hup, hd⟩
    · exact hr
    · obtain ⟨st', hst', rfl⟩ := Option.mem_map.mp hst
      exact hclear.2 st' hst' hup owner hd
  rw [← hid]
  refine ⟨?_, List.mem_map_of_mem (hclear.1 x hx)⟩
  simpa [excluded] using View.not_excluded_of_ranked hx

/-- When nothing is left to rank, every known member was tried: one that is pruned now and was not
at the start has been tried. -/
theorem tried_of_none (hs : Orderly c s) (h : resolve c s a = none) :
    ∀ m ∈ known c, m.id ∈ s.tried := by
  intro m hm
  have hkey : c.key ≠ "" := by
    intro hkey
    simp [known, View.rankedOwners, hkey] at hm
  obtain ⟨hrow, helig⟩ := (View.mem_rankedOwners hkey (List.Perm.refl _)).mp hm
  have hempty : ranked c s a = [] := by
    unfold resolve View.resolveOwner at h
    split at h
    · assumption
    · split at h
      · cases h
      · split at h
        · cases h
        · split at h
          · cases h
          · split at h <;> cases h
  by_contra hnot
  have hpruned : s.view.pruned (c.now + a.elapsed) m.id = false := by
    by_contra hp
    rcases hs.pruned _ _ (by simpa using hp) with hearly | hmem
    · have hstill : c.view.pruned c.now m.id = true := by
        simp only [View.pruned, Option.any_eq_true] at hearly ⊢
        obtain ⟨d, hd, hlt⟩ := hearly
        exact ⟨d, hd, by simpa using lt_of_le_of_lt (Nat.le_add_right _ _) (of_decide_eq_true hlt)⟩
      simp [View.eligible, hstill] at helig
    · exact hnot hmem
  have hin : m ∈ ranked c s a := by
    refine (View.mem_rankedOwners hkey (List.Perm.refl _)).mpr ⟨hs.members ▸ hrow, ?_⟩
    have hstate : m.state.leaving = false := by
      simp only [View.eligible, Bool.not_eq_true', Bool.or_eq_false_iff] at helig
      exact helig.2
    simp [View.eligible, excluded, hnot, hpruned, hstate]
  rw [hempty] at hin
  cases hin

theorem orderly_step (hs : Orderly c s) (hclear : Clear c s a) (h : step c s a = some t) :
    Orderly c t := by
  obtain ⟨-, hp⟩ := step_cases h
  have hadd : ∀ {owner : Member}, resolve c s a = some owner →
      (s.tried ++ [owner.id]).Nodup ∧ s.tried ++ [owner.id] ⊆ (known c).map Member.id := by
    intro owner howner
    obtain ⟨hnew, hknown⟩ := resolve_known hclear howner
    refine ⟨List.nodup_append'.mpr ⟨hs.nodup, List.nodup_singleton _, ?_⟩, ?_⟩
    · simpa using hnew
    · exact List.append_subset.mpr ⟨hs.known, by simpa using hknown⟩
  cases hp with
  | spent hspent =>
    -- more owners tried than are known, though each is known and none was tried twice
    have hle := (List.subperm_of_subset hs.nodup hs.known).length_le
    simp only [List.length_map, maxAttempts] at hle hspent
    omega
  | none hnone =>
    have hall : ∀ m ∈ Forward.known c, m.id ∈ s.tried := tried_of_none hs hnone
    exact { hs with reported := fun _ => hall }
  | here _ => exact { hs with reported := fun h => by cases h }
  | @skipped owner howner _ =>
    refine ⟨?_, (hadd howner).1, (hadd howner).2, ?_, ?_⟩
    · simp only [skip, markUnavailable]
      split
      · exact hs.members
      · exact hs.members
    · intro now id hid
      simp only [skip, markUnavailable] at hid ⊢
      split at hid
      · exact (hs.pruned now id hid).imp_right (List.mem_append_left _)
      · rw [View.pruned, View.pruneMember, Assoc.lookup_insert_ite] at hid
        by_cases heq : id = owner.id
        · exact .inr (by simp [heq])
        · rw [if_neg heq] at hid
          exact (hs.pruned now id hid).imp_right (List.mem_append_left _)
    · intro hout
      have hopen := (step_cases h).1
      simp [skip, hopen] at hout
  | ended howner _ ho =>
    refine ⟨hs.members, (hadd howner).1, (hadd howner).2, ?_, ?_⟩
    · intro now id hid
      exact (hs.pruned now id hid).imp_right (List.mem_append_left _)
    · intro hout
      exact absurd (Option.some.inj hout) ho

/-- `ResolveOwner` avoids the excluded members exactly if the shared store does not name one. A
request whose passes all find the store naming a member they rank themselves, if any, and no member
back from pruning, contacts no member twice and finds no owner only when every known member was
tried. There are at most two more passes than known members, whatever they find. -/
theorem forward_tries_each_once (c : ForwardConfig) :
    (∀ (v : View) (excluded : String → Bool) (now : Nat) (store : Option Valkey)
      (storeFails : Bool),
      (∀ s ∈ store, s.Sound) → v.rankedOwners c.hash v.members.rows c.key excluded now ≠ [] →
      ((∀ owner, v.resolveOwner c.hash c.key excluded now c.assignmentTTL store storeFails =
            some owner → excluded owner.id = false) ↔
        ∀ s ∈ store, storeFails = false → ∀ m ∈ s.assigned c.hash c.key, excluded m.id = false)) ∧
    ∀ as s, Trace.exec (step c) (start c) as = some s →
      as.length ≤ (known c).length + 2 ∧ (s.outcome = none → ∀ a, (step c s a).isSome = true) ∧
      (Trace.Along (step c) (Clear c) (start c) as →
        s.tried.Nodup ∧ (s.outcome = some .unavailable → ∀ m ∈ known c, m.id ∈ s.tried)) := by
  refine ⟨fun v excluded now store storeFails hsound hr => View.resolveOwner_avoids_iff hsound hr,
    ?_⟩
  intro as s hrun
  refine ⟨?_, fun hopen a => step_isSome hopen a, ?_⟩
  · have htried : s.tried.length ≤ maxAttempts c :=
      Trace.exec_always tried_le_step (Nat.zero_le _) hrun
    have hlen := length_le hrun
    have hout : s.outcome.toList.length ≤ 1 := by cases s.outcome <;> simp
    simp only [maxAttempts] at htried
    omega
  · intro hclear
    have hs : Orderly c s :=
      Trace.exec_invariant orderly_step (orderly_start c) hclear hrun
    exact ⟨hs.nodup, hs.reported⟩

instance : Decidable (Clear c s a) := by unfold Clear; infer_instance

/-- Node `a` forwards a request of a user; both nodes are known to it. -/
def atNodeA : ForwardConfig where
  hash := id
  self := "a"
  key := "user"
  view := { members := ⟨[Valkey.nodeA, Valkey.nodeB], by decide, by decide⟩ }
  now := 0
  pruneTTL := 30000
  assignmentTTL := 310000

/-- A store in which the user is assigned to `b`. -/
def assignedToB : { s : Valkey // s.Sound } :=
  ⟨(Valkey.assign id (({} : Valkey).heartbeat Valkey.nodeB 15000) "user" [Valkey.nodeB] 310000).1,
    Valkey.sound_run (show Trace.exec (Valkey.step id) {} [.heartbeat Valkey.nodeB 15000,
      .assign "user" [Valkey.nodeB] 310000] = some _ from rfl)⟩

/-- Without a store, a request that cannot reach `b` is served at `a`. -/
theorem unreachable_peer_falls_back :
    ∃ s, Trace.exec (step atNodeA) (start atNodeA)
        [{ reply := .unreachable }, { reply := .answered }] = some s ∧
      s.outcome = some .here ∧ s.tried = ["b"] ∧ s.tried.Nodup := by
  have hrun : ∃ s, Trace.exec (step atNodeA) (start atNodeA)
      [{ reply := .unreachable }, { reply := .answered }] = some s ∧
      s.outcome = some .here ∧ s.tried = ["b"] := by decide +kernel
  obtain ⟨s, hs, hout, htried⟩ := hrun
  refine ⟨s, hs, hout, htried, ?_⟩
  exact (((forward_tries_each_once atNodeA).2 _ s hs).2.2 (by decide +kernel)).1

/-- The user is assigned to `b`, which cannot be reached, and the releases fail: `b` is tried three
times and no owner is found, though `a` itself is known and was not tried. -/
theorem failed_release_repeats_owner :
    ∃ s, Trace.exec (step atNodeA) (start atNodeA)
        (List.replicate 4 { store := some assignedToB, reply := .unreachable }) = some s ∧
      s.tried = ["b", "b", "b"] ∧ s.outcome = some .unavailable ∧
      Valkey.nodeA ∈ known atNodeA ∧ Valkey.nodeA.id ∉ s.tried := by
  decide +kernel

end Forward

end Aquifer
