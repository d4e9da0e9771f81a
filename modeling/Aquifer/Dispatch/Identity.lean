import Mathlib.Logic.Encodable.Basic
import Mathlib.Logic.Equiv.List
import Aquifer.Dispatch.Routing

/-! What tells tenants apart: the idempotency hash of a request and the queue key of a job. -/
namespace Aquifer

/-- The user id `v` is `u` followed by a colon and more. -/
def Extends (u v : String) : Prop := (u ++ ":").toList <+: v.toList

instance (u v : String) : Decidable (Extends u v) := inferInstanceAs (Decidable (_ <+: _))

variable {u v k l : String}

theorem extends_iff : Extends u v ↔ ∃ x, v = u ++ ":" ++ x := by
  constructor
  · rintro ⟨x, hx⟩
    exact ⟨String.ofList x, String.toList_inj.mp (by simp [← hx])⟩
  · rintro ⟨x, rfl⟩
    exact ⟨x.toList, by simp⟩

/-- Two texts joined by a colon are told apart unless one user id extends the other. -/
theorem join_inj (huv : ¬ Extends u v) (hvu : ¬ Extends v u)
    (h : u ++ ":" ++ k = v ++ ":" ++ l) : u = v ∧ k = l := by
  have hl : u.toList ++ ':' :: k.toList = v.toList ++ ':' :: l.toList := by
    simpa using congrArg String.toList h
  rcases Texts.split_cases hl with ⟨hx, hk⟩ | hx | hx
  · exact ⟨String.toList_inj.mp hx, String.toList_inj.mp hk⟩
  · exact absurd (by simpa [Extends] using hx) huv
  · exact absurd (by simpa [Extends] using hx) hvu

/-- The shared namespace never meets a tenant's, whose user id has no NUL. -/
theorem shared_ne_join (hu : '\x00' ∉ u.toList) : "shared\x00" ++ l ≠ u ++ ":" ++ k := by
  intro h
  have hl : "shared\x00".toList ++ l.toList = u.toList ++ ':' :: k.toList := by
    simpa using congrArg String.toList h
  rcases List.append_eq_append_iff.mp hl with ⟨x, hx, hk⟩ | ⟨x, hx, hk⟩
  · exact hu (by simp [hx])
  · cases x with
    | nil => exact hu (by simp [← show _ = u.toList by simpa using hx])
    | cons c x =>
      obtain ⟨rfl, -⟩ := List.cons.inj hk
      have : ':' ∈ "shared\x00".toList := by simp [hx]
      exact absurd this (by decide)

theorem Request.userID_no_nul {env : Env} {r : Request} (h : r.validate env = "") :
    '\x00' ∉ r.userID.toList := by
  obtain ⟨-, -, hnul, -⟩ := validate_iff.mp h
  exact hnul

/-- Two requests ask for the same work: in the shared namespace under one key, or both as the
same user under one key. -/
def Request.SameWork (r r' : Request) : Prop :=
  (r.idempotencyScope = "shared" ∧ r'.idempotencyScope = "shared" ∧
    r.idempotentKey = r'.idempotentKey) ∨
  (r.idempotencyScope ≠ "shared" ∧ r'.idempotencyScope ≠ "shared" ∧
    r.userID = r'.userID ∧ r.idempotentKey = r'.idempotentKey)

instance (r r' : Request) : Decidable (r.SameWork r') := by
  unfold Request.SameWork
  infer_instance

section Exact

variable {env : Env} {c : Routing} {r r' : Request}

theorem Request.SameWork.hash_eq (h : r.SameWork r') : r.hash env = r'.hash env := by
  rcases h with ⟨hs, hs', hk⟩ | ⟨hs, hs', hu, hk⟩
  · rw [hash, hash, dedupHash, dedupHash, if_pos hs, if_pos hs', hk]
  · rw [hash, hash, dedupHash, dedupHash, if_neg hs, if_neg hs', hu, hk]

theorem Request.sameWork_of_hash_eq (hh : Function.Injective env.hashKey)
    (hr : r.validate env = "") (hr' : r'.validate env = "")
    (huv : ¬ Extends r.userID r'.userID) (hvu : ¬ Extends r'.userID r.userID)
    (h : r.hash env = r'.hash env) : r.SameWork r' := by
  simp only [hash, dedupHash] at h
  split_ifs at h with hs hs' hs'
  · have hk : "shared\x00" ++ r.idempotentKey = "shared\x00" ++ r'.idempotentKey := hh h
    exact .inl ⟨hs, hs', String.toList_inj.mp (by simpa using congrArg String.toList hk)⟩
  · exact absurd (hh h) (shared_ne_join (userID_no_nul hr'))
  · exact absurd (hh h).symm (shared_ne_join (userID_no_nul hr))
  · exact .inr ⟨hs, hs', join_inj huv hvu (hh h)⟩

/-- The identities of two users' admitted requests, and of any two of their jobs, coincide
exactly when they should. -/
structure IdentityExact (env : Env) (c : Routing) (u v : String) : Prop where
  hash : ∀ r r' : Request, r.userID = u → r'.userID = v →
    r.validate env = "" → r'.validate env = "" → (r.hash env = r'.hash env ↔ r.SameWork r')
  job_hash : ∀ (r r' : Request) (id id' : String) (now now' : Time), r.userID = u → r'.userID = v →
    r.validate env = "" → r'.validate env = "" →
    ((Job.new env r id now).idempotencyHash env = (Job.new env r' id' now').idempotencyHash env ↔
      r.SameWork r')
  queue : ∀ j j' : Job, j.userID = u → j'.userID = v →
    (c.jobQueueKey j = c.jobQueueKey j' ↔ j.userID = j'.userID ∧ j.apiKey = j'.apiKey)

theorem identityExact_of_not_extends (hh : Function.Injective env.hashKey)
    (hs : Function.Injective c.sha256String) (huv : ¬ Extends u v) (hvu : ¬ Extends v u) :
    IdentityExact env c u v := by
  have hreq : ∀ r r' : Request, r.userID = u → r'.userID = v → r.validate env = "" →
      r'.validate env = "" → (r.hash env = r'.hash env ↔ r.SameWork r') := by
    rintro r r' rfl rfl hr hr'
    exact ⟨Request.sameWork_of_hash_eq hh hr hr' huv hvu, Request.SameWork.hash_eq⟩
  refine ⟨hreq, fun r r' id id' now now' => ?_, ?_⟩
  · rw [Job.idempotencyHash_new, Job.idempotencyHash_new]
    exact hreq r r'
  · rintro j j' rfl rfl
    refine ⟨fun h => join_inj huv hvu (hs h), fun ⟨hu, hk⟩ => ?_⟩
    rw [Routing.jobQueueKey, Routing.jobQueueKey, hu, hk]

/-- A job that carries the given user and the given API key. -/
def bearer (userID key : String) : Job := { id := "", userID, headers := [("Authorization", key)] }

theorem apiKey_bearer (h : k ≠ "") : (bearer u k).apiKey = k := by
  simp [Job.apiKey, Job.header, bearer, h]

/-- The longer user's job under the key `k` is queued with the shorter user's under the rest of
the longer name. -/
theorem queue_collision_of_extends (h : Extends u v) :
    ∃ j j' : Job, j.userID = u ∧ j'.userID = v ∧ j.userID ≠ j'.userID ∧
      c.jobQueueKey j = c.jobQueueKey j' := by
  obtain ⟨x, rfl⟩ := extends_iff.mp h
  refine ⟨bearer u (x ++ ":k"), bearer (u ++ ":" ++ x) "k", rfl, rfl, fun heq => ?_, ?_⟩
  · have := congrArg (fun s => s.toList.length) heq
    simp [bearer] at this
  · rw [Routing.jobQueueKey, Routing.jobQueueKey, apiKey_bearer (by simp), apiKey_bearer (by simp)]
    refine congrArg c.sha256String (String.toList_inj.mp ?_)
    simp [bearer]

theorem identity_exact_iff (hh : Function.Injective env.hashKey)
    (hs : Function.Injective c.sha256String) (u v : String) :
    IdentityExact env c u v ↔ ¬ Extends u v ∧ ¬ Extends v u := by
  constructor
  · intro h
    constructor
    · intro hext
      obtain ⟨j, j', hu, hv, hne, hkey⟩ := queue_collision_of_extends (c := c) hext
      exact hne ((h.queue j j' hu hv).mp hkey).1
    · intro hext
      obtain ⟨j, j', hv, hu, hne, hkey⟩ := queue_collision_of_extends (c := c) hext
      exact hne ((h.queue j' j hu hv).mp hkey.symm).1.symm
  · rintro ⟨huv, hvu⟩
    exact identityExact_of_not_extends hh hs huv hvu

/-- A hash for every text in unary, which is injective and has no bar. -/
def unary (s : String) : String :=
  String.ofList (List.replicate (Encodable.encode (s.toList.map Char.toNat)) 'x')

theorem unary_injective : Function.Injective unary := by
  intro s t h
  have hlen : Encodable.encode (s.toList.map Char.toNat) =
      Encodable.encode (t.toList.map Char.toNat) := by
    simpa [unary] using congrArg (fun s => s.toList.length) h
  have hmap := Encodable.encode_injective hlen
  exact String.toList_inj.mp
    (List.map_injective_iff.mpr (fun a b hab => Char.toNat_inj.mp hab) hmap)

def unaryEnv : Env := { hashKey := unary }

def unaryRouting : Routing where
  domainKey := id
  sha256String := unary
  sha256_plain s := by
    constructor
    · simp [unary]
    · intro h
      have : '_' ∈ (unary s).toList := by simp [h, sharedQueueKey]
      simp [unary] at this

theorem identity_exact_alice_bob : Function.Injective unaryEnv.hashKey ∧
    Function.Injective unaryRouting.sha256String ∧
    IdentityExact unaryEnv unaryRouting "alice" "bob" :=
  ⟨unary_injective, unary_injective,
    (identity_exact_iff unary_injective unary_injective "alice" "bob").mpr ⟨by decide, by decide⟩⟩

/-- User `a:b` with the key `c` has the identity of user `a` with the key `b:c`, as a request and
as a queue. -/
theorem colon_confuses_tenants :
    (∃ r r' : Request, r.validate unaryEnv = "" ∧ r'.validate unaryEnv = "" ∧
      r.userID ≠ r'.userID ∧ ¬ r.SameWork r' ∧ r.hash unaryEnv = r'.hash unaryEnv) ∧
    ∃ j j' : Job, j.userID ≠ j'.userID ∧
      unaryRouting.jobQueueKey j = unaryRouting.jobQueueKey j' := by
  constructor
  · refine ⟨{ userID := "a:b", idempotentKey := "c", url := "https://api.example" },
      { userID := "a", idempotentKey := "b:c", url := "https://api.example" },
      by decide, by decide, by decide, by decide, ?_⟩
    exact congrArg unary (by decide)
  · exact ⟨bearer "a:b" "c", bearer "a" "b:c", by decide, congrArg unary (by decide)⟩

end Exact

end Aquifer
