import Mathlib.Data.List.MinMax
import Aquifer.Cluster.Ranking
import Aquifer.Core.Proxy

/-! Cross-region redirects: the order in which an origin tours the other regions, and the tour
itself, with both ends of every hop. -/
namespace Aquifer

/-! ### The order of the candidates -/

namespace Region

variable {hash : String → String} {key self o₁ o₂ : String} {live live₁ live₂ visited : List String}

/-- `Pick`: a candidate replaces the best so far only with a higher score. -/
def pick (hash : String → String) (candidates : List String) (key : String) : String :=
  match candidates with
  | [] => ""
  | first :: rest =>
    rest.foldl (fun best c =>
      if View.score hash best key < View.score hash c key then c else best) first

def eligible (live visited : List String) (self : String) : List String :=
  live.filter fun region => !(region = self || region ∈ visited)

def orderedCandidates (hash : String → String) (live visited : List String) (self key : String) :
    List String :=
  if eligible live visited self = [] then []
  else
    let preferred := pick hash (eligible live visited self) key
    preferred :: (eligible live visited self).filter (· ≠ preferred)

theorem argmax_eq_pick {candidates : List String} (h : candidates ≠ []) :
    candidates.argmax (View.score hash · key) = some (pick hash candidates key) := by
  obtain ⟨first, rest, rfl⟩ := List.exists_cons_of_ne_nil h
  simp only [List.argmax, List.foldl_cons, List.argAux, pick]
  clear h
  -- both folds carry the best candidate so far
  induction rest generalizing first with
  | nil => rfl
  | cons c rest ih =>
    simp only [List.foldl_cons, List.argAux]
    rw [← ih]
    split <;> rfl

theorem pick_mem {candidates : List String} (h : candidates ≠ []) :
    pick hash candidates key ∈ candidates :=
  List.argmax_mem (argmax_eq_pick h)

theorem score_le_pick {candidates : List String} {c : String} (h : c ∈ candidates) :
    View.score hash c key ≤ View.score hash (pick hash candidates key) key :=
  List.le_of_mem_argmax h (argmax_eq_pick (List.ne_nil_of_mem h))

theorem mem_eligible {region : String} :
    region ∈ eligible live visited self ↔ region ∈ live ∧ region ≠ self ∧ region ∉ visited := by
  simp [eligible]

/-- The first candidate is an eligible region with the highest score of them. -/
theorem head_orderedCandidates_eq_some_iff (region : String)
    (hinj : Set.InjOn (View.score hash · key) { r | r ∈ eligible live visited self }) :
    (orderedCandidates hash live visited self key).head? = some region ↔
      region ∈ eligible live visited self ∧
        ∀ r ∈ eligible live visited self, View.score hash r key ≤ View.score hash region key := by
  unfold orderedCandidates
  split
  · next hnil => simp [hnil]
  · next hne =>
    rw [List.head?_cons, Option.some.injEq]
    constructor
    · rintro rfl
      exact ⟨pick_mem hne, fun r hr => score_le_pick hr⟩
    · rintro ⟨hmem, hbest⟩
      exact hinj (pick_mem hne) hmem (le_antisymm (hbest _ (pick_mem hne)) (score_le_pick hmem))

/-- Two origins that see the same live regions begin with the same region exactly when the region
with the highest score is neither of the two: each leaves itself out. -/
theorem origins_agree_iff (hash : String → String) (key : String) (fleet : List String)
    (ho₂ : o₂ ∈ fleet) (hne : o₁ ≠ o₂)
    (hlive₁ : ∀ r, r ≠ o₁ → (r ∈ live₁ ↔ r ∈ fleet))
    (hlive₂ : ∀ r, r ≠ o₂ → (r ∈ live₂ ↔ r ∈ fleet))
    (hinj : Set.InjOn (View.score hash · key) { r | r ∈ fleet }) :
    (orderedCandidates hash live₁ [] o₁ key).head? =
        (orderedCandidates hash live₂ [] o₂ key).head? ↔
      ∃ top ∈ fleet, top ≠ o₁ ∧ top ≠ o₂ ∧
        ∀ r ∈ fleet, View.score hash r key ≤ View.score hash top key := by
  have hmem₁ (r : String) : r ∈ eligible live₁ [] o₁ ↔ r ∈ fleet ∧ r ≠ o₁ := by
    rw [mem_eligible]
    exact ⟨fun h => ⟨(hlive₁ r h.2.1).mp h.1, h.2.1⟩,
      fun h => ⟨(hlive₁ r h.2).mpr h.1, h.2, List.not_mem_nil⟩⟩
  have hmem₂ (r : String) : r ∈ eligible live₂ [] o₂ ↔ r ∈ fleet ∧ r ≠ o₂ := by
    rw [mem_eligible]
    exact ⟨fun h => ⟨(hlive₂ r h.2.1).mp h.1, h.2.1⟩,
      fun h => ⟨(hlive₂ r h.2).mpr h.1, h.2, List.not_mem_nil⟩⟩
  have hhead₁ (r : String) := head_orderedCandidates_eq_some_iff r
    (hinj.mono fun r hr => ((hmem₁ r).mp hr).1)
  have hhead₂ (r : String) := head_orderedCandidates_eq_some_iff r
    (hinj.mono fun r hr => ((hmem₂ r).mp hr).1)
  simp only [hmem₁, hmem₂, and_imp] at hhead₁ hhead₂
  constructor
  · intro heq
    have hsome : (orderedCandidates hash live₁ [] o₁ key).head? ≠ none := by
      have hne : eligible live₁ [] o₁ ≠ [] := List.ne_nil_of_mem ((hmem₁ o₂).mpr ⟨ho₂, hne.symm⟩)
      simp [orderedCandidates, hne]
    obtain ⟨top, htop⟩ := Option.ne_none_iff_exists'.mp hsome
    obtain ⟨⟨hfleet, hne₁⟩, hbest₁⟩ := (hhead₁ top).mp htop
    obtain ⟨⟨-, hne₂⟩, hbest₂⟩ := (hhead₂ top).mp (heq ▸ htop)
    refine ⟨top, hfleet, hne₁, hne₂, fun r hr => ?_⟩
    -- the first origin has not compared itself, but the second has compared it
    by_cases hr₁ : r = o₁
    · exact hbest₂ r hr (hr₁ ▸ hne)
    · exact hbest₁ r hr hr₁
  · rintro ⟨top, hfleet, hne₁, hne₂, hbest⟩
    rw [(hhead₁ top).mpr ⟨⟨hfleet, hne₁⟩, fun r hr _ => hbest r hr⟩,
      (hhead₂ top).mpr ⟨⟨hfleet, hne₂⟩, fun r hr _ => hbest r hr⟩]

/-- Of three regions, the two that do not have the highest score agree on the third. -/
theorem lower_origins_agree :
    (orderedCandidates (fun text => text) ["b", "c"] [] "a" "k").head? =
      (orderedCandidates (fun text => text) ["c", "b", "a"] [] "b" "k").head? := by
  refine (origins_agree_iff (fun text => text) "k" ["a", "b", "c"] (by decide) (by decide)
    ?_ ?_ ?_).mpr ⟨"c", by decide, by decide, by decide, by decide⟩
  · intro r hr
    simp [hr]
  · intro r hr
    simp only [List.mem_cons, List.not_mem_nil, or_false]
    tauto
  · intro r hr r' hr' h
    simp only [Set.mem_ofPred_eq, List.mem_cons, List.not_mem_nil, or_false] at hr hr'
    rcases hr with rfl | rfl | rfl <;> rcases hr' with rfl | rfl | rfl <;>
      first | rfl | exact absurd h (by decide)

/-- With two regions each origin begins with the other, whatever the scores. With three, the one
with the highest score begins with the second best. -/
theorem top_origin_differs :
    ((orderedCandidates (fun text => text) ["a", "b"] [] "a" "k").head? = some "b" ∧
      (orderedCandidates (fun text => text) ["a", "b"] [] "b" "k").head? = some "a") ∧
    (orderedCandidates (fun text => text) ["a", "b", "c"] [] "a" "k").head? = some "c" ∧
      (orderedCandidates (fun text => text) ["a", "b", "c"] [] "c" "k").head? = some "b" := by
  decide +kernel

end Region

/-! ### The tour -/

/-- The instance that makes a tour, as the tour reads it. `selfMachineID` is never empty. -/
structure Origin where
  machineID : String
  machineID_ne : machineID ≠ ""
  hash : String → String
  regionAdapter : Bool := true
  gateOpen : Bool := false
  self : String
  live : List String
  visited : List String := []
  accountQueueMode : String := ""

def Origin.candidates (o : Origin) (job : Job) : List String :=
  Region.orderedCandidates o.hash o.live o.visited o.self job.idempotentKey

/-- One hop as the network and the other region's target decide it: whether the request arrives,
what the region's handler reads while it serves it, whether the target's answer is an event stream,
and whether the handler's answer is lost or too late, as a whole or in the middle of its body. -/
structure Contact where
  answers : Answers
  arrives : Bool := true
  eventStream : Bool := false
  lost : Bool := false
  truncated : Bool := false

/-- The request `tryRedirectHop` sends; a pool is never handed on. -/
def Origin.hopRequest (o : Origin) (job : Job) (directOnly : Bool) : Request where
  userID := job.userID
  idempotentKey := job.idempotentKey
  idempotencyScope := job.idempotencyScope
  maxRetries := some job.maxRetries
  webhookMaxRetries := job.webhookMaxRetries
  url := job.url
  method := job.method
  headers := job.headers
  body := job.body
  webhookURL := job.webhookURL
  executeBefore := job.executeBefore
  originMachineID := o.machineID
  directOnly := directOnly
  accountQueueMode := o.accountQueueMode

/-- What `tryRedirectHop` makes of a reply that arrives: it sees a status and a content type. The
status of a direct answer is the target's; `WriteHeader` panics on one out of range. -/
def Reply.hop (eventStream : Bool) : Reply → Hop
  | .direct status =>
    if status < 100 ∨ 999 < status then .unreachable
    else if eventStream then .relay
    else if 200 ≤ status ∧ status < 300 then .direct status
    else .refused
  | .stream _ _ | .relay _ => .relay
  | .finished _ => .direct 200
  | .result _ => .direct 202
  | .error _ _ | .draining | .rejected _ | .redirectExhausted | .schemaMismatch _
  | .couldNotCompleteDirectly _ _ => .refused
  | .forwarded | .panicked => .unreachable

/-- A contact the origin has made, with the region's reply if the request arrived. -/
structure Made where
  region : String
  directOnly : Bool
  contact : Contact
  reply : Option Reply

namespace Made

def hop (m : Made) : Hop :=
  match m.reply with
  | none => .unreachable
  | some reply => if m.contact.lost then .unreachable else reply.hop m.contact.eventStream

def answer (m : Made) : Option ProxyOutcome := m.hop.outcome m.region

/-- The status of the target's answer, if the region sent it the job and recorded it completed. -/
def executed (m : Made) : Option Nat :=
  match m.reply with
  | some (.direct status) => some status
  | _ => none

/-- The region's direct answer as the origin hands it on to the caller. -/
def relayed (m : Made) (status : Nat) : ProxyOutcome :=
  if m.contact.eventStream then .relay m.region else .direct status

/-- The caller gets only a part of the answer: an error of `ReadAll` is ignored, and the per-hop
context is cancelled when `tryRedirectHop` returns a stream to relay. -/
def cut (m : Made) : Bool := m.contact.truncated || (m.directOnly && m.contact.eventStream)

/-- A direct answer that the origin gets, recognises as one and can relay. -/
def Usable (m : Made) (status : Nat) : Prop :=
  m.contact.lost = false ∧ m.contact.truncated = false ∧ 100 ≤ status ∧ status ≤ 999 ∧
    if m.contact.eventStream then m.directOnly = false else 200 ≤ status ∧ status < 300

instance (m : Made) (status : Nat) : Decidable (m.Usable status) :=
  inferInstanceAs (Decidable (_ ∧ _))

variable {m : Made} {status : Nat} {out : ProxyOutcome}

theorem executed_eq_some_iff : m.executed = some status ↔ m.reply = some (.direct status) := by
  unfold executed
  split
  · next h => simp [h]
  · next h => simpa using h status

/-- The origin tells an answer by its content type and status alone. -/
theorem answer_of_executed (h : m.executed = some status) :
    m.answer =
      if m.contact.lost = false ∧ 100 ≤ status ∧ status ≤ 999 ∧
          (m.contact.eventStream = true ∨ (200 ≤ status ∧ status < 300)) then
        some (m.relayed status)
      else none := by
  simp only [answer, hop, executed_eq_some_iff.mp h, Reply.hop, relayed]
  by_cases hrange : status < 100 ∨ 999 < status
  · have hno : ¬ (100 ≤ status ∧ status ≤ 999) := by omega
    cases m.contact.lost <;> simp only [hrange, if_true, if_false, Bool.false_eq_true, Hop.outcome]
    · rw [if_neg fun h => hno ⟨h.2.1, h.2.2.1⟩]
    · simp
  · have hin : 100 ≤ status ∧ status ≤ 999 := by omega
    cases m.contact.lost <;> cases m.contact.eventStream <;>
      by_cases hok : 200 ≤ status ∧ status < 300 <;> simp [hrange, hin, hok, Hop.outcome]

/-- Of a region that completed the job, the origin relays the answer exactly when it is usable. -/
theorem relayed_iff_usable (h : m.executed = some status) :
    m.answer = some (m.relayed status) ∧ m.cut = false ↔ m.Usable status := by
  rw [answer_of_executed h, Option.ite_none_right_eq_some, cut, Usable]
  cases m.contact.eventStream <;> cases m.contact.truncated <;> cases m.directOnly <;> simp

end Made

/-- The regions' nodes and the contacts made so far. -/
structure Tour where
  nodes : String → Node
  made : List Made := []

namespace Tour

variable {env : Env} {o : Origin} {job : Job} {world : Nat → Contact} {t : Tour} {w : Answers}
  {made : List Made} {out : Option ProxyOutcome}

/-- `tryRedirectHop`, with the region's own handler at the other end. -/
def tryRedirectHop (env : Env) (o : Origin) (job : Job) (world : Nat → Contact) (t : Tour)
    (region : String) (directOnly : Bool) : Tour × Option ProxyOutcome :=
  let c := world t.made.length
  if c.arrives then
    let (n, reply) := proxyJob env (t.nodes region) (o.hopRequest job directOnly) c.answers
    let m : Made := ⟨region, directOnly, c, some reply⟩
    (⟨Function.update t.nodes region n, t.made ++ [m]⟩, m.answer)
  else ({ t with made := t.made ++ [⟨region, directOnly, c, none⟩] }, none)

/-- The first phase: every candidate, for a direct success only. -/
def directPhase (env : Env) (o : Origin) (job : Job) (world : Nat → Contact) :
    Tour → List String → Tour × Option ProxyOutcome
  | t, [] => (t, none)
  | t, region :: rest =>
    match tryRedirectHop env o job world t region true with
    | (t, some out) => (t, some out)
    | (t, none) => directPhase env o job world t rest

/-- `attemptRedirect`, where the `k`-th contact turns out as `world k`. -/
def attemptRedirect (env : Env) (o : Origin) (job : Job) (world : Nat → Contact)
    (nodes : String → Node) : Tour × Redirect :=
  if job.originMachineID ≠ "" then (⟨nodes, []⟩, .notApplicable)
  else if !o.regionAdapter then (⟨nodes, []⟩, .notApplicable)
  else if o.gateOpen then (⟨nodes, []⟩, .exhausted)
  else
    match o.candidates job with
    | [] => (⟨nodes, []⟩, .exhausted)
    | final :: rest =>
      match directPhase env o job world ⟨nodes, []⟩ (final :: rest) with
      | (t, some out) => (t, .succeeded out)
      | (t, none) =>
        match tryRedirectHop env o job world t final false with
        | (t, some out) => (t, .succeeded out)
        | (t, none) => (t, .exhausted)

/-- What a tour's contacts say of its outcome: it stops at the first one that answers. -/
def Ends (made : List Made) : Option ProxyOutcome → Prop
  | none => ∀ m ∈ made, m.answer = none
  | some out => ∃ before m, made = before ++ [m] ∧ m.answer = some out ∧
      ∀ b ∈ before, b.answer = none

theorem Ends.cons {m : Made} (hm : m.answer = none) (h : Ends made out) : Ends (m :: made) out := by
  cases out with
  | none => exact List.forall_mem_cons.mpr ⟨hm, h⟩
  | some out =>
    obtain ⟨before, last, rfl, hlast, hbefore⟩ := h
    exact ⟨m :: before, last, rfl, hlast, List.forall_mem_cons.mpr ⟨hm, hbefore⟩⟩

theorem ends_singleton (m : Made) : Ends [m] m.answer := by
  cases h : m.answer with
  | none => simpa [Ends] using h
  | some out => exact ⟨[], m, rfl, h, by simp⟩

theorem Ends.append {made' : List Made} (h : Ends made none) (h' : Ends made' out) :
    Ends (made ++ made') out := by
  induction made with
  | nil => exact h'
  | cons m made ih =>
    exact (ih fun b hb => h b (List.mem_cons_of_mem m hb)).cons (h m List.mem_cons_self)

theorem Ends.answer_last {before : List Made} {m : Made} {out : ProxyOutcome}
    (h : Ends (before ++ [m]) (some out)) : m.answer = some out := by
  obtain ⟨before', m', hmade, hm', -⟩ := h
  rw [(List.append_singleton_inj.mp hmade).2]
  exact hm'

/-- A contact that answers is the last one, and its answer is the outcome. -/
theorem Ends.eq_last {before after : List Made} {m : Made} (h : Ends (before ++ m :: after) out)
    (hm : m.answer ≠ none) : after = [] ∧ out = m.answer := by
  cases out with
  | none => exact absurd (h m (by simp)) hm
  | some out =>
    rcases List.eq_nil_or_concat after with rfl | ⟨init, last, rfl⟩
    · exact ⟨rfl, h.answer_last.symm⟩
    · obtain ⟨before', m', hmade, -, hbefore⟩ := h
      rw [List.concat_eq_append, ← List.cons_append, ← List.append_assoc] at hmade
      rw [← (List.append_singleton_inj.mp hmade).1] at hbefore
      exact absurd (hbefore m (by simp)) hm

/-- Of contacts that are sure to answer there is at most one. -/
theorem Ends.length_filter_le {p : Made → Bool} (h : Ends made out)
    (hp : ∀ m ∈ made, p m = true → m.answer ≠ none) :
    (made.filter p).length ≤ 1 := by
  cases out with
  | none =>
    have hnil : made.filter p = [] := List.filter_eq_nil_iff.mpr fun m hm hpm =>
      hp m hm hpm (h m hm)
    simp [hnil]
  | some out =>
    obtain ⟨before, m, rfl, -, hbefore⟩ := h
    have hnil : before.filter p = [] :=
      List.filter_eq_nil_iff.mpr fun b hb hpb => hp b (by simp [hb]) hpb (hbefore b hb)
    rw [List.filter_append, hnil]
    exact List.length_filter_le p [m]

theorem tryRedirectHop_made (env : Env) (o : Origin) (job : Job) (world : Nat → Contact) (t : Tour)
    (region : String) (directOnly : Bool) :
    ∃ m : Made, (tryRedirectHop env o job world t region directOnly).1.made = t.made ++ [m] ∧
      m.region = region ∧ m.directOnly = directOnly ∧
      m.answer = (tryRedirectHop env o job world t region directOnly).2 := by
  simp only [tryRedirectHop]
  split
  · exact ⟨_, rfl, rfl, rfl, rfl⟩
  · exact ⟨_, rfl, rfl, rfl, rfl⟩

/-- The first phase adds its contacts to those made before, and ends with them. -/
theorem ends_directPhase (env : Env) (o : Origin) (job : Job) (world : Nat → Contact) (t : Tour)
    (regions : List String) :
    ∃ made, (directPhase env o job world t regions).1.made = t.made ++ made ∧
      Ends made (directPhase env o job world t regions).2 := by
  induction regions generalizing t with
  | nil => exact ⟨[], by simp [directPhase], by simp [directPhase, Ends]⟩
  | cons region rest ih =>
    obtain ⟨m, hmade, -, -, hanswer⟩ := tryRedirectHop_made env o job world t region true
    unfold directPhase
    split
    · next out heq =>
      rw [heq] at hmade hanswer
      exact ⟨[m], hmade, hanswer ▸ ends_singleton m⟩
    · next t' heq =>
      rw [heq] at hmade hanswer
      obtain ⟨made, hrest, hends⟩ := ih t'
      exact ⟨m :: made, by rw [hrest, hmade]; simp, hends.cons hanswer⟩

def outcome : Redirect → Option ProxyOutcome
  | .succeeded out => some out
  | .notApplicable | .exhausted => none

theorem ends_attemptRedirect (env : Env) (o : Origin) (job : Job) (world : Nat → Contact)
    (nodes : String → Node) :
    Ends (attemptRedirect env o job world nodes).1.made
      (outcome (attemptRedirect env o job world nodes).2) := by
  unfold attemptRedirect
  split
  · simp [outcome, Ends]
  split
  · simp [outcome, Ends]
  split
  · simp [outcome, Ends]
  split
  · simp [outcome, Ends]
  next final rest _ =>
  obtain ⟨made, hmade, hends⟩ := ends_directPhase env o job world ⟨nodes, []⟩ (final :: rest)
  rw [List.nil_append] at hmade
  split
  · next t out heq =>
    rw [heq] at hmade hends
    exact hmade ▸ hends
  · next t heq =>
    rw [heq] at hmade hends
    obtain ⟨m, hlast, -, -, hanswer⟩ := tryRedirectHop_made env o job world t final false
    have hall : Ends (made ++ [m]) m.answer := hends.append (ends_singleton m)
    rw [hanswer] at hall
    rw [hmade] at hlast
    split <;> next heq' => rw [heq'] at hlast hall; exact hlast ▸ hall

/-- In the terms of the handler's model, where a hop is known by its region and phase: there the
redirect ends as the tour does. -/
theorem findSome_directPhase (regions : List String)
    (hw : ∀ m ∈ (directPhase env o job world t regions).1.made,
      w.hop m.region m.directOnly = m.hop) :
    (regions.findSome? fun region => (w.hop region true).outcome region) =
      (directPhase env o job world t regions).2 := by
  induction regions generalizing t with
  | nil => rfl
  | cons region rest ih =>
    obtain ⟨m, hmade, hregion, hdirect, hanswer⟩ :=
      tryRedirectHop_made env o job world t region true
    have hfirst (h : w.hop m.region m.directOnly = m.hop) :
        (w.hop region true).outcome region = m.answer := by
      rw [Made.answer, ← h, hregion, hdirect]
    unfold directPhase at hw ⊢
    split at hw
    · next t' out heq =>
      simp only [heq] at hmade hanswer
      rw [List.findSome?_cons, hfirst (hw m (hmade ▸ List.mem_concat_self)), hanswer]
    · next t' heq =>
      simp only [heq] at hmade hanswer
      obtain ⟨made, hrest, -⟩ := ends_directPhase env o job world t' rest
      have hmem : m ∈ (directPhase env o job world t' rest).1.made := by
        rw [hrest, hmade]
        simp
      rw [List.findSome?_cons, hfirst (hw m hmem), hanswer]
      exact ih hw

theorem attemptRedirect_eq (nodes : String → Node) (hcand : w.candidates = o.candidates job)
    (hadapter : w.regionAdapter = o.regionAdapter) (hgate : w.gateOpen = o.gateOpen)
    (hw : ∀ m ∈ (attemptRedirect env o job world nodes).1.made,
      w.hop m.region m.directOnly = m.hop) :
    Aquifer.attemptRedirect job w = (attemptRedirect env o job world nodes).2 := by
  by_cases hstart : job.originMachineID = "" ∧ o.regionAdapter = true ∧ o.gateOpen = false
  · obtain ⟨hid, ha, hg⟩ := hstart
    simp only [attemptRedirect, hid, ha, hg, ne_eq, not_true_eq_false, if_false, Bool.not_true,
      Bool.false_eq_true] at hw ⊢
    simp only [Aquifer.attemptRedirect, hid, hadapter, ha, hgate, hg, hcand, ne_eq,
      not_true_eq_false, if_false, Bool.not_true, Bool.false_eq_true]
    cases hc : o.candidates job with
    | nil => rfl
    | cons final rest =>
      simp only [hc] at hw ⊢
      split at hw
      · next t out heq =>
        rw [findSome_directPhase (final :: rest) (by rw [heq]; exact hw), heq]
      · next t heq =>
        obtain ⟨m, hlast, hregion, hdirect, hanswer⟩ :=
          tryRedirectHop_made env o job world t final false
        have hall : ∀ m ∈ (tryRedirectHop env o job world t final false).1.made,
            w.hop m.region m.directOnly = m.hop := by
          split at hw <;> next heq' => rw [heq']; exact hw
        rw [hlast] at hall
        have hfirst : ∀ m ∈ (directPhase env o job world ⟨nodes, []⟩ (final :: rest)).1.made,
            w.hop m.region m.directOnly = m.hop := by
          rw [heq]
          exact fun m hm => hall m (List.mem_append_left _ hm)
        have hfinal : (w.hop final false).outcome final = m.answer := by
          rw [Made.answer, ← hall m List.mem_concat_self, hregion, hdirect]
        rw [findSome_directPhase (final :: rest) hfirst, hfinal, hanswer]
        cases hhop : tryRedirectHop env o job world t final false with
        | mk t' out => cases out <;> simp only [heq]
  · simp only [attemptRedirect, Aquifer.attemptRedirect, hadapter, hgate]
    split
    · rfl
    split
    · rfl
    split
    · rfl
    · next h₁ h₂ h₃ => exact absurd ⟨not_not.mp h₁, by simpa using h₂, by simpa using h₃⟩ hstart

section Direct

variable {st : Store} {req : Request} {status : Nat}

theorem prepareJob_ready_eq (h : (prepareJob env st req w).2 = .ready job) :
    job = w.job env req := by
  simp only [prepareJob] at h
  split at h
  · cases h
  split at h
  · cases h
  split at h
  · cases h
  split at h
  · next hs =>
    cases h
    exact (screen_eq_ready_iff.mp hs).2
  · next hno => exact absurd h (hno job)

/-- Without a tour the only direct outcome is the target's own answer, recorded. -/
theorem tryDirect_direct (hr : w.redirects job = false)
    (h : (tryDirect st req job w).2 = .direct status) :
    w.direct.map DirectResponse.status = some status ∧
      (tryDirect st req job w).1 = st.updateStatus job.id .completed w.completed := by
  have hlocal (reason : String) (code : Nat) (tr : Bool) :
      (fallbackOutcome st req job reason code tr w).2 ≠ .direct status := by
    simp [fallbackOutcome_local (show (tr && w.redirects job) = false by simp [hr])]
  unfold tryDirect at h ⊢
  split at h
  · cases h
  iterate 5
    split at h
    · exact absurd h (hlocal _ _ _)
  simp_all

/-- A region that answers a hop directly sent the job to its target and recorded it completed. -/
theorem recorded_of_direct {n : Node} {directOnly : Bool}
    (h : (proxyJob env n (o.hopRequest job directOnly) w).2 = .direct status) :
    w.direct.map DirectResponse.status = some status ∧
      (proxyJob env n (o.hopRequest job directOnly) w).1.store =
        (prepareJob env n.store (o.hopRequest job directOnly) w).1.updateStatus w.id .completed
          w.completed := by
  have hout := (answerProxy_iff status).2.mp h
  rw [proxyJob, answerProxy_of_not_fallback (by rw [hout]; rfl)]
  simp only [attemptDirect] at hout ⊢
  split at hout
  · cases hout
  · cases hout
  · next st fresh heq =>
    obtain rfl := prepareJob_ready_eq (congrArg Prod.snd heq)
    -- the hop carries the origin's machine id, so that it makes no tour of its own
    have hr : w.redirects (w.job env (o.hopRequest job directOnly)) = false := by
      simp [Answers.redirects, Answers.job, Job.new, Origin.hopRequest, o.machineID_ne]
    simpa [heq] using tryDirect_direct hr hout

end Direct

/-- A tour stops at the first region that completed the job and relays its whole answer, so that no
two regions complete it, exactly when every answer that reports a completed job is usable. -/
theorem stops_at_executor_iff (env : Env) (o : Origin) (job : Job) (world : Nat → Contact)
    (nodes : String → Node) :
    ((∀ before m after status,
        (attemptRedirect env o job world nodes).1.made = before ++ m :: after →
        m.executed = some status →
        after = [] ∧ (attemptRedirect env o job world nodes).2 = .succeeded (m.relayed status) ∧
          m.cut = false) ∧
      ((attemptRedirect env o job world nodes).1.made.filter (·.executed.isSome)).length ≤ 1) ↔
    ∀ m ∈ (attemptRedirect env o job world nodes).1.made, ∀ status,
      m.executed = some status → m.Usable status := by
  have hends := ends_attemptRedirect env o job world nodes
  generalize (attemptRedirect env o job world nodes).1.made = made at hends ⊢
  generalize (attemptRedirect env o job world nodes).2 = result at hends ⊢
  constructor
  · rintro ⟨hstop, -⟩ m hm status hexec
    obtain ⟨before, after, rfl⟩ := List.append_of_mem hm
    obtain ⟨rfl, rfl, hcut⟩ := hstop before m after status rfl hexec
    exact (Made.relayed_iff_usable hexec).mp ⟨hends.answer_last, hcut⟩
  · intro husable
    have hanswer {m : Made} {status : Nat} (hm : m ∈ made) (hexec : m.executed = some status) :=
      (Made.relayed_iff_usable hexec).mpr (husable m hm status hexec)
    constructor
    · rintro before m after status rfl hexec
      obtain ⟨ha, hcut⟩ := hanswer (by simp) hexec
      obtain ⟨hlast, hout⟩ := hends.eq_last (by simp [ha])
      refine ⟨hlast, ?_, hcut⟩
      rw [ha] at hout
      cases result <;> cases hout
      rfl
    · refine hends.length_filter_le fun m hm hexec => ?_
      obtain ⟨status, hstatus⟩ := Option.isSome_iff_exists.mp hexec
      simp [(hanswer hm hstatus).1]

def originA : Origin where
  machineID := "m"
  machineID_ne := by decide
  hash := fun text => text
  self := "a"
  live := ["b", "c"]

/-- The tour of a request whose contacts turn out as given, every region being empty before. -/
def toured (world : Nat → Contact) : Tour × Redirect :=
  attemptRedirect plainEnv originA (Job.new plainEnv plainRequest "1" 0) world fun _ => emptyNode

/-- A contact that reaches a region whose target answers with a status. -/
def answering (status : Nat) : Contact where
  answers := { id := "1", direct := some { status := status } }

/-- Where the target answers 404, both regions complete the job, and the caller is told 200, as the
first one answers the committing call for a duplicate. Where the first region's answer is lost the
second completes the job again. And of an event stream the tour stops at the first region, but the
stream is cut off. -/
theorem second_region_executes :
    ((toured fun _ => answering 404).1.made.map (fun m => (m.region, m.executed)) =
        [("c", some 404), ("b", some 404), ("c", none)] ∧
      (toured fun _ => answering 404).2 = .succeeded (.direct 200)) ∧
    (toured fun k => { answering 200 with lost := k = 0 }).1.made.map
        (fun m => (m.region, m.executed)) = [("c", some 200), ("b", some 200)] ∧
    (toured fun _ => { answering 200 with eventStream := true }).1.made.map
        (fun m => (m.executed, m.cut)) = [(some 200, true)] := by
  decide +kernel

end Tour

end Aquifer
