import Mathlib.Algebra.Ring.Int.Defs
import Aquifer.Jobs
import Aquifer.Lib.Trace
import Aquifer.Cluster.Ranking

/-! The scopes a node has work for: requests and jobs count towards them, and the node gives up a
scope when it has been idle or when other nodes have room for it. -/
namespace Aquifer

/-- Shared-scope requests route by what they ask for, all others by their user. -/
def clusterRoutingKey (scope idempotentKey userID : String) : String :=
  if scope = "shared" then "shared\x00" ++ idempotentKey else userID

def Request.clusterRoutingKey (r : Request) : String :=
  Aquifer.clusterRoutingKey r.idempotencyScope r.idempotentKey r.userID

def Job.clusterRoutingKey (j : Job) : String :=
  Aquifer.clusterRoutingKey j.idempotencyScope j.idempotentKey j.userID

theorem Job.clusterRoutingKey_new {env : Env} {r : Request} {id : String} {now : Time} :
    (Job.new env r id now).clusterRoutingKey = r.clusterRoutingKey := rfl

structure RouterConfig where
  self : String
  hash : String → String
  idleTTL : Nat
  rebalanceGrace : Nat

/-- `clusterScopeActivity`; times are in milliseconds. -/
structure Activity where
  lastSeen : Nat := 0
  outstanding : Nat := 0
deriving DecidableEq, Repr

/-- A request that is here and that no scope counts yet, with the time it was routed. There is none
for a request that another node has routed and sent here. -/
structure Router.Waiting where
  job : Job
  since : Option Nat
deriving DecidableEq, Repr

/-- A rebalance pass under way: the keys still to look at, the members and users of the fair share,
how many users are too many, and how many were handed to each member and in all. -/
structure Router.Pass where
  idle : List String
  active : Int
  total : Int
  excess : Int
  handed : Assoc String Int := ∅
  released : Nat := 0

/-- Where `syncState` stands: between ticks, releasing the keys it found idle, or rebalancing. -/
inductive Router.Sync
  | resting
  | releasing (keys : List String)
  | rebalancing (pass : Router.Pass)

/-- The router of one node. The requests and jobs on the node are kept next to what it counts:
requests that wait to be counted, those being handled, and jobs that have not finished. -/
structure Router where
  now : Nat := 0
  localScopes : Assoc String Activity := ∅
  nodeState : NodeState := .active
  view : View := { members := .empty }
  waiting : List Router.Waiting := []
  handling : List Job := []
  work : List Job := []
  sync : Router.Sync := .resting

inductive Router.Event
  | tick (elapsed : Nat)
  | route (job : Job)
  | refuse (job : Job)
  | arrive (job : Job)
  | drop (r : Router.Waiting)
  | track (r : Router.Waiting)
  | answer (job : Job)
  | enqueue (job : Job)
  | attach (jobs : List Job)
  | complete (job : Job)
  | setState (state : NodeState)
  | syncState
  | release
  | members (found : Option (Table Member Member.id Member.id))
  | handBack (fails : Bool)

namespace Router

variable (c : RouterConfig) (s : Router)

def activity (key : String) : Activity := (s.localScopes.lookup key).getD {}

/-- `touchLocalScopeLocked`. -/
def touchLocalScope (key : String) : Router :=
  { s with localScopes := s.localScopes.insert key { s.activity key with lastSeen := s.now } }

def trackLocalJob (key : String) : Router :=
  if key = "" then s
  else { s with
    localScopes := s.localScopes.insert key ⟨s.now, (s.activity key).outstanding + 1⟩ }

def completeLocalJob (key : String) : Router :=
  match s.localScopes.lookup key with
  | none => s
  | some a => { s with localScopes := s.localScopes.insert key ⟨s.now, a.outstanding - 1⟩ }

/-- The test for an idle release, made once to collect the keys and again under the scope's lock. -/
def idleScope (key : String) : Bool :=
  match s.localScopes.lookup key with
  | none => false
  | some a => a.outstanding = 0 ∧ c.idleTTL ≤ s.now - a.lastSeen

/-- `handOffCandidateLocked`, likewise. -/
def handOffCandidate (key : String) : Bool :=
  match s.localScopes.lookup key with
  | none => false
  | some a => a.outstanding = 0 ∧ c.rebalanceGrace ≤ s.now - a.lastSeen ∧
      s.now - a.lastSeen < c.idleTTL

def activeScopeCount : Nat :=
  s.localScopes.entries.countP fun e => 0 < e.2.outstanding ∨ s.now - e.2.lastSeen < c.idleTTL

def sortKeys (keys : List String) : List String := keys.insertionSort fun a b => ¬ b < a

def rebalanceMaxPerPass : Nat := 10

/-- The start of `rebalance`: nothing to do, or a pass over the users that may be handed back. The
fair share is `total / active`, and a node hands users back above one and a half of it. -/
def rebalance : Option Pass :=
  let members := s.view.members.rows.filter (s.view.eligible (fun _ => false) s.now)
  let active : Int := members.length
  let total := (members.map Member.activeUsers).sum
  let mine : Int := s.activeScopeCount c
  if s.nodeState.leaving ∨ active < 2 ∨ total = 0 ∨ 2 * mine * active ≤ 3 * total then none
  else some {
    idle := sortKeys (s.localScopes.keys.filter (s.handOffCandidate c))
    active, total
    excess := mine - (total + active - 1) / active }

/-- The first-ranked member for a key, if it is another node that has room for one more. -/
def firstChoice (pass : Pass) (key : String) : Option Member :=
  match s.view.rankedOwners c.hash s.view.members.rows key (fun _ => false) s.now with
  | [] => none
  | m :: _ =>
    let load := m.activeUsers + (pass.handed.lookup m.id).getD 0
    if m.id = c.self ∨ pass.total ≤ load * pass.active ∨ roomOf m ≤ load then none else some m

/-- The member the next key of a pass goes to, if it is to be handed back at all. -/
def preferred (pass : Pass) (key : String) : Option Member :=
  (s.firstChoice c pass key).filter fun _ => s.handOffCandidate c key

def forget (key : String) : Router := { s with localScopes := s.localScopes.erase key }

/-- One key of the pass. A store that fails ends the pass. -/
def handBack (pass : Pass) (fails : Bool) : Router :=
  match pass.idle with
  | [] => { s with sync := .resting }
  | key :: rest =>
    if pass.excess ≤ 0 ∨ rebalanceMaxPerPass ≤ pass.released then { s with sync := .resting }
    else
      match s.preferred c pass key with
      | none => { s with sync := .rebalancing { pass with idle := rest } }
      | some m =>
        if fails then { s with sync := .resting }
        else { s.forget key with sync := .rebalancing { pass with
          idle := rest
          excess := pass.excess - 1
          handed := pass.handed.insert m.id ((pass.handed.lookup m.id).getD 0 + 1)
          released := pass.released + 1 } }

/-- The scope that the event makes this node release, if it does: an idle one, one that is handed
back, or that of a request that finds the node leaving. -/
def releases : Event → Option String
  | .refuse job => if s.nodeState.leaving then some job.clusterRoutingKey else none
  | .release =>
    match s.sync with
    | .releasing (key :: _) => if s.idleScope c key then some key else none
    | _ => none
  | .handBack _ =>
    match s.sync with
    | .rebalancing pass =>
      match pass.idle with
      | [] => none
      | key :: _ =>
        if pass.excess ≤ 0 ∨ rebalanceMaxPerPass ≤ pass.released then none
        else (s.preferred c pass key).map fun _ => key
    | _ => none
  | _ => none

def step : Event → Option Router
  | .tick elapsed => some { s with now := s.now + elapsed }
  -- `ResolveOwner` answers with this node, and has noted the scope as seen
  | .route job =>
    if job.clusterRoutingKey ≠ "" ∧ s.nodeState.leaving = false then
      some { s.touchLocalScope job.clusterRoutingKey with
        waiting := ⟨job, some s.now⟩ :: s.waiting }
    else none
  | .refuse job =>
    if job.clusterRoutingKey ≠ "" ∧ s.nodeState.leaving then
      some (s.touchLocalScope job.clusterRoutingKey)
    else none
  | .arrive job => some { s with waiting := ⟨job, none⟩ :: s.waiting }
  -- it came after its sender's deadline, or it has no user and fails the validation
  | .drop r =>
    if r ∈ s.waiting ∧ (r.since = none ∨ r.job.userID = "") then
      some { s with waiting := s.waiting.erase r }
    else none
  -- `trackLocalClusterRequest`
  | .track r =>
    if r ∈ s.waiting ∧ r.job.userID ≠ "" then
      some { s.trackLocalJob r.job.clusterRoutingKey with
        waiting := s.waiting.erase r
        handling := r.job :: s.handling }
    else none
  | .answer job =>
    if job ∈ s.handling then
      some { s.completeLocalJob job.clusterRoutingKey with handling := s.handling.erase job }
    else none
  -- a job of a request, a webhook delivery or a recovered job goes to its worker
  | .enqueue job => some { s.trackLocalJob job.userID with work := job :: s.work }
  -- recovered jobs stay on disk
  | .attach jobs => some { s with work := jobs ++ s.work }
  -- the job has finished, or admission or a stopped worker has turned it away
  | .complete job =>
    if job ∈ s.work then
      some { s.completeLocalJob job.userID with work := s.work.erase job }
    else none
  | .setState state => some { s with nodeState := state }
  | .syncState =>
    match s.sync with
    | .resting =>
      some { s with sync := .releasing (s.localScopes.keys.filter (s.idleScope c)) }
    | _ => none
  | .release =>
    match s.sync with
    | .releasing (key :: rest) =>
      some { (if s.idleScope c key then s.forget key else s) with sync := .releasing rest }
    | _ => none
  -- the members as the store has them now, with this node's own record
  | .members found =>
    match s.sync, found with
    | .releasing [], none => some { s with sync := .resting }
    | .releasing [], some members =>
      let t := { s with view := { s.view.expirePruned s.now with members := members } }
      some { t with sync := (t.rebalance c).elim .resting .rebalancing }
    | _, _ => none
  | .handBack fails =>
    match s.sync with
    | .rebalancing pass => some (s.handBack c pass fails)
    | _ => none

end Router

end Aquifer
