import Mathlib.Data.List.Count
import Aquifer.Cluster.Router

/-! When a node gives up a scope, and whether it still has work for it. -/
namespace Aquifer.Router

variable {c : RouterConfig} {s t : Router} {e : Event} {key k : String} {job : Job} {r : Waiting}

/-- The work is all user-scoped and none of it is attached on disk, no request finds the node
leaving, and at a release each request that waits under the scope was routed by this node less than
a grace period ago. -/
def Orderly (c : RouterConfig) (s : Router) (e : Event) : Prop :=
  (match e with
    | .route job | .arrive job | .enqueue job => job.clusterRoutingKey = job.userID
    | .attach _ | .refuse _ => False
    | _ => True) ∧
  ∀ key ∈ s.releases c e, ∀ r ∈ s.waiting, r.job.clusterRoutingKey = key →
    ∃ since ∈ r.since, s.now < since + c.rebalanceGrace

instance : Decidable (Orderly c s e) := by
  unfold Orderly
  refine @instDecidableAnd _ _ ?_ inferInstance
  split <;> infer_instance

def load (s : Router) (user : String) : Nat :=
  s.handling.countP (fun j => j.userID = user) + s.work.countP (fun j => j.userID = user)

/-- The scopes are users, each counts that user's work, and a user whose request waits to be counted
was seen when the request was routed. -/
structure Tracked (s : Router) : Prop where
  named : s.localScopes.lookup "" = none
  waiting : ∀ r ∈ s.waiting, r.job.clusterRoutingKey = r.job.userID
  handling : ∀ j ∈ s.handling, j.clusterRoutingKey = j.userID
  work : ∀ j ∈ s.work, j.clusterRoutingKey = j.userID
  count : ∀ {key}, key ≠ "" → (s.activity key).outstanding = s.load key
  seen : ∀ r ∈ s.waiting, ∀ since ∈ r.since, since ≤ s.now ∧
    ∃ a, s.localScopes.lookup r.job.userID = some a ∧ since ≤ a.lastSeen

theorem tracked_init {v : View} : Tracked { view := v } where
  named := rfl
  waiting := by simp
  handling := by simp
  work := by simp
  count := by simp [activity, load]
  seen := by simp

/-- The scopes there were are still there and were not seen earlier than before. -/
def Later (s t : Router) : Prop :=
  ∀ {k a}, s.localScopes.lookup k = some a → ∃ b, t.localScopes.lookup k = some b ∧
    (a.lastSeen ≤ b.lastSeen ∨ b.lastSeen = s.now)

theorem later_insert {a : Activity} (ha : a.lastSeen = s.now) :
    Later s { s with localScopes := s.localScopes.insert key a } := by
  intro k b hb
  by_cases hk : k = key
  · exact ⟨a, Assoc.lookup_insert_ite.trans (if_pos hk), Or.inr ha⟩
  · exact ⟨b, (Assoc.lookup_insert_ite.trans (if_neg hk)).trans hb, Or.inl le_rfl⟩

theorem later_touch : Later s (s.touchLocalScope key) := later_insert rfl

theorem later_track : Later s (s.trackLocalJob key) := by
  unfold trackLocalJob
  split
  · exact fun hk => ⟨_, hk, Or.inl le_rfl⟩
  · exact later_insert rfl

theorem later_complete : Later s (s.completeLocalJob key) := by
  unfold completeLocalJob
  split
  · exact fun hk => ⟨_, hk, Or.inl le_rfl⟩
  · exact later_insert rfl

theorem Tracked.seen_of_later (h : Tracked s) (hlater : Later s t) (hr : r ∈ s.waiting)
    {since : Nat} (hsince : since ∈ r.since) : since ≤ s.now ∧
      ∃ a, t.localScopes.lookup r.job.userID = some a ∧ since ≤ a.lastSeen := by
  obtain ⟨hnow, a, ha, hseen⟩ := h.seen r hr since hsince
  obtain ⟨b, hb, hle | heq⟩ := hlater ha
  · exact ⟨hnow, b, hb, hseen.trans hle⟩
  · exact ⟨hnow, b, hb, hnow.trans heq.ge⟩

theorem trackLocalJob_eq :
    s.trackLocalJob key = { s with localScopes := (s.trackLocalJob key).localScopes } := by
  unfold trackLocalJob
  split <;> rfl

theorem completeLocalJob_eq :
    s.completeLocalJob key = { s with localScopes := (s.completeLocalJob key).localScopes } := by
  unfold completeLocalJob
  split <;> rfl

theorem outstanding_insert {a : Activity} :
    ((s.localScopes.insert key a).lookup k).getD {} = if k = key then a else s.activity k := by
  rw [Assoc.lookup_insert_ite]
  split <;> rfl

theorem outstanding_touch :
    ((s.touchLocalScope key).activity k).outstanding = (s.activity k).outstanding := by
  refine (congrArg Activity.outstanding outstanding_insert).trans ?_
  split
  · next hk => rw [hk]
  · rfl

theorem outstanding_track (hk : k ≠ "") :
    ((s.trackLocalJob key).activity k).outstanding =
      (s.activity k).outstanding + if key = k then 1 else 0 := by
  unfold trackLocalJob
  split
  · next hkey =>
    rw [if_neg (hkey ▸ hk.symm)]
    rfl
  · refine (congrArg Activity.outstanding outstanding_insert).trans ?_
    by_cases hkey : k = key
    · rw [if_pos hkey, if_pos hkey.symm, hkey]
    · rw [if_neg hkey, if_neg (Ne.symm hkey)]
      rfl

theorem outstanding_complete :
    ((s.completeLocalJob key).activity k).outstanding =
      (s.activity k).outstanding - if key = k then 1 else 0 := by
  unfold completeLocalJob
  split
  · next hnone =>
    by_cases hk : key = k
    · subst hk
      have hzero : (s.activity key).outstanding = 0 := by simp [activity, hnone]
      rw [hzero, Nat.zero_sub]
    · rw [if_neg hk, Nat.sub_zero]
  · next a hsome =>
    refine (congrArg Activity.outstanding outstanding_insert).trans ?_
    by_cases hk : k = key
    · subst hk
      simp [activity, hsome]
    · rw [if_neg hk, if_neg (Ne.symm hk)]
      rfl

theorem countP_erase_add {jobs : List Job} (hjob : job ∈ jobs) (user : String) :
    jobs.countP (fun j => j.userID = user) =
      (jobs.erase job).countP (fun j => j.userID = user) + if job.userID = user then 1 else 0 := by
  rw [(List.perm_cons_erase hjob).countP_eq, List.countP_cons]
  simp

namespace Tracked

/-- Nothing happens to the scopes and the work, and time does not go back. -/
theorem congr (h : Tracked s) (hscopes : t.localScopes = s.localScopes)
    (hwaiting : t.waiting = s.waiting) (hhandling : t.handling = s.handling)
    (hwork : t.work = s.work) (hnow : s.now ≤ t.now) : Tracked t where
  named := hscopes ▸ h.named
  waiting := hwaiting ▸ h.waiting
  handling := hhandling ▸ h.handling
  work := hwork ▸ h.work
  count hkey := by
    simp only [activity, load, hscopes, hhandling, hwork]
    exact h.count hkey
  seen r hr since hsince := by
    rw [hwaiting] at hr
    rw [hscopes]
    obtain ⟨hle, hseen⟩ := h.seen r hr since hsince
    exact ⟨hle.trans hnow, hseen⟩

theorem named_insert {a : Activity} (h : Tracked s) (hkey : key ≠ "") :
    (s.localScopes.insert key a).lookup "" = none :=
  (Assoc.lookup_insert_ite.trans (if_neg hkey.symm)).trans h.named

theorem touch (h : Tracked s) (hkey : key ≠ "") : Tracked (s.touchLocalScope key) where
  __ := h
  named := h.named_insert hkey
  count hk := outstanding_touch.trans (h.count hk)
  seen _ hr _ hsince := h.seen_of_later later_touch hr hsince

theorem route (h : Tracked s) (hkey : job.clusterRoutingKey ≠ "")
    (huser : job.clusterRoutingKey = job.userID) :
    Tracked { s.touchLocalScope job.clusterRoutingKey with
      waiting := ⟨job, some s.now⟩ :: s.waiting } := by
  have ht := h.touch hkey
  refine { ht with waiting := ?_, seen := ?_ }
  · intro r hr
    rcases List.mem_cons.mp hr with rfl | hr
    · exact huser
    · exact h.waiting r hr
  · intro r hr since hsince
    rcases List.mem_cons.mp hr with rfl | hr
    · cases hsince
      refine ⟨le_rfl, _, Assoc.lookup_insert_ite.trans (if_pos huser.symm), le_rfl⟩
    · exact ht.seen r hr since hsince

theorem arrive (h : Tracked s) (huser : job.clusterRoutingKey = job.userID) :
    Tracked { s with waiting := ⟨job, none⟩ :: s.waiting } := by
  refine { h with waiting := ?_, seen := ?_ }
  · intro r hr
    rcases List.mem_cons.mp hr with rfl | hr
    · exact huser
    · exact h.waiting r hr
  · intro r hr since hsince
    rcases List.mem_cons.mp hr with rfl | hr
    · cases hsince
    · exact h.seen r hr since hsince

theorem drop (h : Tracked s) : Tracked { s with waiting := s.waiting.erase r } where
  __ := h
  waiting r hr := h.waiting r (List.mem_of_mem_erase hr)
  seen r hr := h.seen r (List.mem_of_mem_erase hr)

theorem named_track (h : Tracked s) : (s.trackLocalJob key).localScopes.lookup "" = none := by
  unfold trackLocalJob
  split
  · exact h.named
  · next hkey => exact h.named_insert hkey

theorem named_complete (h : Tracked s) : (s.completeLocalJob key).localScopes.lookup "" = none := by
  unfold completeLocalJob
  split
  · exact h.named
  · next hsome =>
    refine h.named_insert ?_
    rintro rfl
    cases h.named.symm.trans hsome

theorem track (h : Tracked s) (hr : r ∈ s.waiting) :
    Tracked { s with
      localScopes := (s.trackLocalJob r.job.clusterRoutingKey).localScopes
      waiting := s.waiting.erase r
      handling := r.job :: s.handling } where
  __ := h
  named := h.named_track
  waiting r' hr' := h.waiting r' (List.mem_of_mem_erase hr')
  handling j hj := by
    rcases List.mem_cons.mp hj with rfl | hj
    · exact h.waiting r hr
    · exact h.handling j hj
  count {k} hk := by
    refine (outstanding_track hk).trans ?_
    rw [h.count hk, h.waiting r hr]
    simp only [load, List.countP_cons, decide_eq_true_eq]
    omega
  seen r' hr' _ hsince := h.seen_of_later later_track (List.mem_of_mem_erase hr') hsince

theorem enqueue (h : Tracked s) (huser : job.clusterRoutingKey = job.userID) :
    Tracked { s with
      localScopes := (s.trackLocalJob job.userID).localScopes
      work := job :: s.work } where
  __ := h
  named := h.named_track
  work j hj := by
    rcases List.mem_cons.mp hj with rfl | hj
    · exact huser
    · exact h.work j hj
  count {k} hk := by
    refine (outstanding_track hk).trans ?_
    rw [h.count hk]
    simp only [load, List.countP_cons, decide_eq_true_eq]
    omega
  seen r hr _ hsince := h.seen_of_later later_track hr hsince

theorem answer (h : Tracked s) (hjob : job ∈ s.handling) :
    Tracked { s with
      localScopes := (s.completeLocalJob job.clusterRoutingKey).localScopes
      handling := s.handling.erase job } where
  __ := h
  named := h.named_complete
  handling j hj := h.handling j (List.mem_of_mem_erase hj)
  count {k} hk := by
    refine outstanding_complete.trans ?_
    rw [h.count hk, h.handling job hjob]
    simp only [load, countP_erase_add hjob k]
    omega
  seen r hr _ hsince := h.seen_of_later later_complete hr hsince

theorem complete (h : Tracked s) (hjob : job ∈ s.work) :
    Tracked { s with
      localScopes := (s.completeLocalJob job.userID).localScopes
      work := s.work.erase job } where
  __ := h
  named := h.named_complete
  work j hj := h.work j (List.mem_of_mem_erase hj)
  count {k} hk := by
    refine outstanding_complete.trans ?_
    rw [h.count hk]
    simp only [load, countP_erase_add hjob k]
    omega
  seen r hr _ hsince := h.seen_of_later later_complete hr hsince

theorem forget (h : Tracked s) (hzero : (s.activity key).outstanding = 0)
    (hclear : ∀ r ∈ s.waiting, r.job.clusterRoutingKey ≠ key) : Tracked (s.forget key) where
  __ := h
  named := by
    refine Assoc.lookup_erase_ite.trans ?_
    split
    · rfl
    · exact h.named
  count {k} hk := by
    refine Eq.trans ?_ (h.count hk)
    simp only [activity, Router.forget, Assoc.lookup_erase_ite]
    split
    · next hkey => exact (hkey ▸ hzero).symm
    · rfl
  seen r hr since hsince := by
    obtain ⟨hle, a, ha, hseen⟩ := h.seen r hr since hsince
    have hne : r.job.userID ≠ key := h.waiting r hr ▸ hclear r hr
    exact ⟨hle, a, (Assoc.lookup_erase_ite.trans (if_neg hne)).trans ha, hseen⟩

end Tracked

/-- The scope counts nothing and was not seen for a grace period. -/
def Quiet (c : RouterConfig) (s : Router) (key : String) : Prop :=
  ∃ a, s.localScopes.lookup key = some a ∧ a.outstanding = 0 ∧ c.rebalanceGrace ≤ s.now - a.lastSeen

theorem quiet_of_idleScope (hgrace : c.rebalanceGrace ≤ c.idleTTL) (h : s.idleScope c key = true) :
    Quiet c s key := by
  unfold idleScope at h
  split at h
  · cases h
  · next a ha =>
    obtain ⟨hzero, hidle⟩ := of_decide_eq_true h
    exact ⟨a, ha, hzero, hgrace.trans hidle⟩

theorem quiet_of_handOffCandidate (h : s.handOffCandidate c key = true) : Quiet c s key := by
  unfold handOffCandidate at h
  split at h
  · cases h
  · next a ha =>
    obtain ⟨hzero, hidle, _⟩ := of_decide_eq_true h
    exact ⟨a, ha, hzero, hidle⟩

/-- A scope is only released when it is quiet, unless the node is leaving. -/
theorem quiet_of_releases (hgrace : c.rebalanceGrace ≤ c.idleTTL)
    (hok : Orderly c s e) (hrel : s.releases c e = some key) : Quiet c s key := by
  cases e with
  | refuse => exact hok.1.elim
  | release =>
    simp only [releases] at hrel
    split at hrel
    · obtain ⟨hidle, ⟨⟩⟩ := Option.ite_none_right_eq_some.mp hrel
      exact quiet_of_idleScope hgrace hidle
    · cases hrel
  | handBack fails =>
    simp only [releases] at hrel
    split at hrel
    · split at hrel
      · cases hrel
      · obtain ⟨_, hmap⟩ := Option.ite_none_left_eq_some.mp hrel
        obtain ⟨m, hm, ⟨⟩⟩ := Option.map_eq_some_iff.mp hmap
        exact quiet_of_handOffCandidate (Option.filter_eq_some_iff.mp hm).2
    · cases hrel
  | _ => cases hrel

/-- Under a scope that is about to be released no request waits to be counted. -/
theorem no_waiting_of_releases (h : Tracked s) (hgrace : c.rebalanceGrace ≤ c.idleTTL)
    (hok : Orderly c s e) (hrel : s.releases c e = some key) :
    ∀ r ∈ s.waiting, r.job.clusterRoutingKey ≠ key := by
  intro r hr hkey
  obtain ⟨a, ha, _, hquiet⟩ := quiet_of_releases hgrace hok hrel
  obtain ⟨since, hsince, hyoung⟩ := hok.2 key hrel r hr hkey
  obtain ⟨_, b, hb, hseen⟩ := h.seen r hr since hsince
  rw [← h.waiting r hr, hkey, ha] at hb
  cases hb
  omega

theorem Tracked.release {key : String} (h : Tracked s) (hgrace : c.rebalanceGrace ≤ c.idleTTL)
    (hok : Orderly c s e) (hrel : s.releases c e = some key) : Tracked (s.forget key) := by
  obtain ⟨a, ha, hzero, _⟩ := quiet_of_releases hgrace hok hrel
  refine h.forget ?_ (no_waiting_of_releases h hgrace hok hrel)
  simp [activity, ha, hzero]

theorem Tracked.handBack {pass : Pass} {fails : Bool} (h : Tracked s)
    (hgrace : c.rebalanceGrace ≤ c.idleTTL) (hok : Orderly c s (.handBack fails))
    (hsync : s.sync = .rebalancing pass) : Tracked (s.handBack c pass fails) := by
  unfold Router.handBack
  split
  · exact h.congr rfl rfl rfl rfl le_rfl
  · next key rest hidle =>
    split
    · exact h.congr rfl rfl rfl rfl le_rfl
    · next hmore =>
      split
      · exact h.congr rfl rfl rfl rfl le_rfl
      · next m hm =>
        have hrel : s.releases c (.handBack fails) = some key := by
          simp only [releases, hsync, hidle, if_neg hmore, hm, Option.map_some]
        split
        · exact h.congr rfl rfl rfl rfl le_rfl
        · exact (h.release hgrace hok hrel).congr rfl rfl rfl rfl le_rfl

theorem tracked_step (hgrace : c.rebalanceGrace ≤ c.idleTTL) (h : Tracked s) (hok : Orderly c s e)
    (hstep : s.step c e = some t) : Tracked t := by
  cases e with
  | tick elapsed =>
    cases hstep
    exact h.congr rfl rfl rfl rfl (Nat.le_add_right _ _)
  | route job =>
    obtain ⟨⟨hkey, _⟩, ⟨⟩⟩ := Option.ite_none_right_eq_some.mp hstep
    exact h.route hkey hok.1
  | refuse => exact hok.1.elim
  | arrive job =>
    cases hstep
    exact h.arrive hok.1
  | drop r =>
    obtain ⟨_, ⟨⟩⟩ := Option.ite_none_right_eq_some.mp hstep
    exact h.drop
  | track r =>
    obtain ⟨⟨hr, _⟩, ⟨⟩⟩ := Option.ite_none_right_eq_some.mp hstep
    rw [trackLocalJob_eq]
    exact h.track hr
  | answer job =>
    obtain ⟨hjob, ⟨⟩⟩ := Option.ite_none_right_eq_some.mp hstep
    rw [completeLocalJob_eq]
    exact h.answer hjob
  | enqueue job =>
    cases hstep
    rw [trackLocalJob_eq]
    exact h.enqueue hok.1
  | attach => exact hok.1.elim
  | complete job =>
    obtain ⟨hjob, ⟨⟩⟩ := Option.ite_none_right_eq_some.mp hstep
    rw [completeLocalJob_eq]
    exact h.complete hjob
  | setState state =>
    cases hstep
    exact h.congr rfl rfl rfl rfl le_rfl
  | syncState =>
    simp only [step] at hstep
    split at hstep
    · cases hstep
      exact h.congr rfl rfl rfl rfl le_rfl
    · cases hstep
  | release =>
    simp only [step] at hstep
    split at hstep
    · next key rest hsync =>
      cases hstep
      split
      · next hidle =>
        have hrel : s.releases c .release = some key := by
          simp only [releases, hsync, if_pos hidle]
        exact (h.release hgrace hok hrel).congr rfl rfl rfl rfl le_rfl
      · exact h.congr rfl rfl rfl rfl le_rfl
    · cases hstep
  | members found =>
    simp only [step] at hstep
    split at hstep
    · cases hstep
      exact h.congr rfl rfl rfl rfl le_rfl
    · cases hstep
      exact h.congr rfl rfl rfl rfl le_rfl
    · cases hstep
  | handBack fails =>
    simp only [step] at hstep
    split at hstep
    · next pass hsync =>
      cases hstep
      exact h.handBack hgrace hok hsync
    · cases hstep

/-- In every run of user-scoped work without backlogs on disk, in which no request finds the node
leaving and the requests that wait under a scope at its release were routed here within the grace
period, a scope is released only when all that was routed here under it has finished. -/
theorem released_scope_has_no_work {v : View} {es : List Event}
    (hgrace : c.rebalanceGrace ≤ c.idleTTL)
    (hok : Trace.Along (step c) (Orderly c) { view := v } es)
    (hrun : Trace.exec (step c) { view := v } es = some s) (he : Orderly c s e)
    (hrel : s.releases c e = some key) :
    (∀ job ∈ s.work, job.clusterRoutingKey ≠ key) ∧
    (∀ job ∈ s.handling, job.clusterRoutingKey ≠ key) ∧
    ∀ r ∈ s.waiting, r.job.clusterRoutingKey ≠ key := by
  have h : Tracked s := Trace.exec_invariant (fun h hok hstep => tracked_step hgrace h hok hstep)
    tracked_init hok hrun
  obtain ⟨a, ha, hzero, _⟩ := quiet_of_releases hgrace he hrel
  have hkey : key ≠ "" := by
    rintro rfl
    cases h.named.symm.trans ha
  have hload : s.load key = 0 := by
    rw [← h.count hkey]
    simp [activity, ha, hzero]
  obtain ⟨hhandling, hwork⟩ := Nat.add_eq_zero_iff.mp hload
  refine ⟨?_, ?_, no_waiting_of_releases h hgrace he hrel⟩
  · intro job hjob hscope
    rw [h.work job hjob] at hscope
    exact List.countP_eq_zero.mp hwork job hjob (decide_eq_true hscope)
  · intro job hjob hscope
    rw [h.handling job hjob] at hscope
    exact List.countP_eq_zero.mp hhandling job hjob (decide_eq_true hscope)

def fiveMinutes : RouterConfig where
  self := "a"
  hash := id
  idleTTL := 300000
  rebalanceGrace := 5000

def userJob : Job := { id := "1", userID := "u" }

def sharedJob : Job :=
  { id := "2", userID := "u", idempotentKey := "k", idempotencyScope := "shared" }

/-- A job from its request to its end, and five minutes later the user's release. -/
def served : List Event :=
  [.route userJob, .track ⟨userJob, some 0⟩, .enqueue userJob, .answer userJob, .complete userJob,
    .tick 300000, .syncState]

theorem served_user_released : ∃ s, Trace.exec (step fiveMinutes) {} served = some s ∧
    s.releases fiveMinutes .release = some "u" ∧ ∀ job ∈ s.work, job.clusterRoutingKey ≠ "u" := by
  have hrun : ∃ s, Trace.exec (step fiveMinutes) {} served = some s ∧
      s.releases fiveMinutes .release = some "u" ∧ Orderly fiveMinutes s .release := by
    decide +kernel
  obtain ⟨s, hrun, hrel, he⟩ := hrun
  have hok : Trace.Along (step fiveMinutes) (Orderly fiveMinutes) {} served := by decide +kernel
  exact ⟨s, hrun, hrel, (released_scope_has_no_work (by decide) hok hrun he hrel).1⟩

/-- A shared-scope job is counted under its user while its scope is released; a job on disk is not
counted at all; a request on its way from another node is not counted yet; with an idle time below
the grace period a request routed a moment ago is not either; and a node that is leaving releases
the scope of any request. -/
theorem working_scope_released :
    (∃ s, Trace.exec (step fiveMinutes) {} [.route sharedJob, .track ⟨sharedJob, some 0⟩,
        .enqueue sharedJob, .answer sharedJob, .tick 300000, .syncState] = some s ∧
      s.releases fiveMinutes .release = some "shared\x00k" ∧ s.work = [sharedJob] ∧
      sharedJob.clusterRoutingKey = "shared\x00k") ∧
    (∃ s, Trace.exec (step fiveMinutes) {} [.enqueue userJob, .attach [{ userJob with id := "3" }],
        .complete userJob, .tick 300000, .syncState] = some s ∧
      s.releases fiveMinutes .release = some "u" ∧ s.work = [{ userJob with id := "3" }]) ∧
    (∃ s, Trace.exec (step fiveMinutes) {} [.enqueue userJob, .complete userJob, .tick 300000,
        .syncState, .arrive { userJob with id := "3" }] = some s ∧
      s.releases fiveMinutes .release = some "u" ∧
      s.waiting = [⟨{ userJob with id := "3" }, none⟩]) ∧
    (∃ s, Trace.exec (step { fiveMinutes with idleTTL := 1000 }) {} [.route userJob, .tick 1000,
        .syncState] = some s ∧
      s.releases { fiveMinutes with idleTTL := 1000 } .release = some "u" ∧
      s.waiting = [⟨userJob, some 0⟩]) ∧
    ∃ s, Trace.exec (step fiveMinutes) {} [.enqueue userJob, .setState .draining] = some s ∧
      s.releases fiveMinutes (.refuse userJob) = some "u" ∧ s.work = [userJob] := by
  refine ⟨?_, ?_, ?_, ?_, ?_⟩ <;> decide +kernel

end Aquifer.Router
