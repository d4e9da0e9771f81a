import Aquifer.Jobs
import Aquifer.Lib.Assoc
import Aquifer.Lib.Texts
import Aquifer.Lib.Trace

/-! The challenge endpoint of the L8 handshake: a freshness window on an unsigned timestamp, and a
memory of nonces that is swept. -/
namespace Aquifer.L8

structure ChallengeRequest where
  challengeID : String
  nonce : String
  timestamp : Int
  senderPublicKey : String
  signature : String
deriving DecidableEq, Repr

structure ChallengeResponse where
  challengeID : String
  nonce : String
  receiverSignature : String
  receiverPublicKey : String
deriving DecidableEq, Repr

def ChallengeRequest.msg (req : ChallengeRequest) : String := req.challengeID ++ ":" ++ req.nonce

/-- Ed25519 and the encoding of keys and signatures. That no two messages have one signature is an
assumption about it. -/
structure Scheme (κ σ : Type) where
  /-- The key in a text of the right size. -/
  publicKey : String → Option κ
  signature : String → Option σ
  verify : κ → String → σ → Bool
  verify_inj : ∀ {k m m' s}, verify k m s = true → verify k m' s = true → m = m'
  sign : String → String
  pubB64 : String

/-- Nanoseconds. -/
def nonceTTL : Time := 300000000000

def maxDuration : Int := 9223372036854775807
def minDuration : Int := -9223372036854775808

/-- Seconds from the zero time to the Unix epoch. -/
def unixToInternal : Int := 62135596800

/-- `time.Unix(sec, 0)` in nanoseconds; the internal count of seconds is an `int64`. -/
def unix (sec : Int) : Time := (int64 (sec + unixToInternal) - unixToInternal) * 1000000000

/-- `time.Since`, which saturates. -/
def since (now t : Time) : Int := max minDuration (min maxDuration (now - t))

/-- The `age` of a timestamp. The negation is an `int64` one, so that the least duration stays
negative. -/
def age (now : Time) (timestamp : Int) : Int :=
  let age := since now (unix timestamp)
  if age < 0 then int64 (-age) else age

abbrev Nonces := Assoc String Time

section Handlers

variable {κ σ : Type}

/-- What `HandleChallenge` answers once the nonce is stored. -/
def Scheme.check (c : Scheme κ σ) (req : ChallengeRequest) : Except String ChallengeResponse :=
  match c.publicKey req.senderPublicKey with
  | none => .error "invalid sender_public_key"
  | some senderPub =>
    match c.signature req.signature with
    | none => .error "invalid signature encoding"
    | some sig =>
      if c.verify senderPub req.msg sig then
        .ok { challengeID := req.challengeID, nonce := req.nonce,
              receiverSignature := c.sign req.msg, receiverPublicKey := c.pubB64 }
      else .error "signature verification failed"

/-- `HandleChallenge`, which reads the clock for the timestamp's age and again for the nonce's
expiry. A nonce is remembered whatever the rest of the request turns out to be. -/
def Scheme.handleChallenge (c : Scheme κ σ) (nonces : Nonces) (checked stored : Time)
    (req : ChallengeRequest) : Nonces × Except String ChallengeResponse :=
  if nonceTTL < age checked req.timestamp then (nonces, .error "timestamp expired")
  else if (nonces.lookup req.nonce).isSome then (nonces, .error "nonce already used")
  else (nonces.insert req.nonce (stored + nonceTTL), c.check req)

def sweep (nonces : Nonces) (now : Time) : Nonces := nonces.keep fun _ expiry => !(expiry < now)

end Handlers

/-! ### Runs -/

/-- A request that was answered successfully, under the key and the signature it was verified
with. -/
structure Answered (κ σ : Type) where
  key : κ
  sig : σ
  nonce : String
  msg : String
  timestamp : Int
deriving DecidableEq

structure Registry (κ σ : Type) where
  nonces : Nonces := ∅
  clock : Time := 0
  answered : List (Answered κ σ) := []

inductive Event
  | request (req : ChallengeRequest) (checked stored : Time)
  | sweep (now : Time)

namespace Registry

variable {κ σ : Type} {c : Scheme κ σ} {s t : Registry κ σ} {e : Event} {req : ChallengeRequest}
  {checked stored : Time}

/-- The answer under whose key and signature a request succeeded. -/
def answer (c : Scheme κ σ) (req : ChallengeRequest) : Option (Answered κ σ) := do
  let key ← c.publicKey req.senderPublicKey
  let sig ← c.signature req.signature
  return ⟨key, sig, req.nonce, req.msg, req.timestamp⟩

/-- One request, or one sweep, at a time the clock has reached. -/
def step (c : Scheme κ σ) (s : Registry κ σ) : Event → Option (Registry κ σ)
  | .request req checked stored =>
    if s.clock ≤ checked ∧ checked ≤ stored then
      match c.handleChallenge s.nonces checked stored req with
      | (nonces, .ok _) =>
        some ⟨nonces, stored, s.answered ++ (answer c req).toList⟩
      | (nonces, .error _) => some { s with nonces := nonces, clock := stored }
    else none
  | .sweep now =>
    if s.clock ≤ now then some { s with nonces := L8.sweep s.nonces now, clock := now } else none

/-- What the two checks rely on and the signature does not cover: no colon in the nonce, a timestamp
that the clock has reached, and the same one whenever the signature is presented again. -/
def Orderly (c : Scheme κ σ) (s : Registry κ σ) : Event → Prop
  | .request req checked _ => ∀ b ∈ answer c req, c.verify b.key b.msg b.sig = true →
      ':' ∉ req.nonce.toList ∧ unix req.timestamp ≤ checked ∧
        ∀ a ∈ s.answered, a.key = b.key → a.sig = b.sig → a.timestamp = b.timestamp
  | .sweep _ => True

instance [DecidableEq κ] [DecidableEq σ] (c : Scheme κ σ) (s : Registry κ σ) :
    (e : Event) → Decidable (Orderly c s e)
  | .request req _ _ => inferInstanceAs (Decidable (∀ b ∈ answer c req, _))
  | .sweep _ => isTrue trivial

theorem ttl_lt_age {timestamp : Int} (h : unix timestamp + nonceTTL < checked) :
    nonceTTL < age checked timestamp := by
  have hpos : (0 : Int) < nonceTTL := by decide
  have hmax : nonceTTL < maxDuration := by decide
  have hsince : nonceTTL < since checked (unix timestamp) :=
    lt_max_of_lt_right (lt_min hmax (Int.lt_sub_left_of_add_lt h))
  simpa only [age, if_neg (hpos.trans hsince).not_gt] using hsince

/-- A text splits at its last colon in only one way. -/
theorem nonce_eq_of_msg_eq {id id' nonce nonce' : String} (h : ':' ∉ nonce.toList)
    (h' : ':' ∉ nonce'.toList) (heq : id ++ ":" ++ nonce = id' ++ ":" ++ nonce') :
    nonce = nonce' := by
  have hchars := congrArg (fun text => text.toList.reverse) heq
  have hcolon : ":".toList = [':'] := rfl
  simp only [String.toList_append, List.reverse_append, hcolon, List.reverse_singleton,
    List.singleton_append] at hchars
  have hsplit := Texts.split_inj (by simpa using h) (by simpa using h') hchars
  exact String.toList_inj.mp (List.reverse_injective hsplit.1)

theorem handleChallenge_ok {nonces nonces' : Nonces} {resp : ChallengeResponse}
    (h : c.handleChallenge nonces checked stored req = (nonces', .ok resp)) :
    age checked req.timestamp ≤ nonceTTL ∧ nonces.lookup req.nonce = none ∧
      nonces' = nonces.insert req.nonce (stored + nonceTTL) ∧
      ∃ b, answer c req = some b ∧ c.verify b.key b.msg b.sig = true ∧ b.nonce = req.nonce ∧
        b.msg = req.msg ∧ b.timestamp = req.timestamp := by
  unfold Scheme.handleChallenge at h
  split at h
  · cases h
  split at h
  · cases h
  · next hage hused =>
    obtain ⟨rfl, hcheck⟩ := Prod.mk.inj h
    refine ⟨not_lt.mp hage, by simpa using hused, rfl, ?_⟩
    unfold Scheme.check at hcheck
    split at hcheck
    · cases hcheck
    split at hcheck
    · cases hcheck
    · next key hkey _ sig hsig =>
      split at hcheck
      · next hverify =>
        exact ⟨⟨key, sig, req.nonce, req.msg, req.timestamp⟩, by simp [answer, hkey, hsig], hverify,
          rfl, rfl, rfl⟩
      · cases hcheck

/-- What orderly runs keep. A nonce that has been answered is in the memory for as long as its
timestamp is fresh. -/
structure Guarded (c : Scheme κ σ) (s : Registry κ σ) : Prop where
  verified : ∀ a ∈ s.answered, c.verify a.key a.msg a.sig = true
  spelled : ∀ a ∈ s.answered, ':' ∉ a.nonce.toList ∧ ∃ id, a.msg = id ++ ":" ++ a.nonce
  remembered : ∀ a ∈ s.answered,
    (∃ expiry ∈ s.nonces.lookup a.nonce, unix a.timestamp + nonceTTL ≤ expiry) ∨
      unix a.timestamp + nonceTTL < s.clock
  once : (s.answered.map fun a => (a.key, a.sig)).Nodup

theorem guarded_sweep {now : Time} (h : Guarded c s) (hnow : s.clock ≤ now) :
    Guarded c { s with nonces := L8.sweep s.nonces now, clock := now } where
  __ := h
  remembered := by
    intro a ha
    rcases h.remembered a ha with ⟨expiry, hl, hle⟩ | hlt
    · by_cases hexp : expiry < now
      · exact .inr (hle.trans_lt hexp)
      · refine .inl ⟨expiry, ?_, hle⟩
        rw [L8.sweep, Assoc.lookup_keep, Option.mem_def.mp hl]
        simp [Option.filter, hexp]
    · exact .inr (hlt.trans_le hnow)

theorem remembered_handleChallenge (h : Guarded c s) (checked : Time) (req : ChallengeRequest)
    (hle : s.clock ≤ stored) :
    ∀ a ∈ s.answered,
      (∃ expiry ∈ (c.handleChallenge s.nonces checked stored req).1.lookup a.nonce,
        unix a.timestamp + nonceTTL ≤ expiry) ∨ unix a.timestamp + nonceTTL < stored := by
  intro a ha
  refine (h.remembered a ha).imp ?_ fun hlt => hlt.trans_le hle
  rintro ⟨expiry, hl, hexp⟩
  refine ⟨expiry, ?_, hexp⟩
  unfold Scheme.handleChallenge
  split
  · exact hl
  split
  · exact hl
  · next hused =>
    have hne : a.nonce ≠ req.nonce := by
      rintro heq
      rw [← heq, Option.mem_def.mp hl] at hused
      exact hused rfl
    rw [AList.lookup_insert_ne hne]
    exact hl

/-- A signature that was answered before is not answered again. -/
theorem fresh_of_ok {nonces' : Nonces} {resp : ChallengeResponse} (h : Guarded c s)
    (hclock : s.clock ≤ checked) (hok : Orderly c s (.request req checked stored))
    (hans : c.handleChallenge s.nonces checked stored req = (nonces', .ok resp))
    {b : Answered κ σ} (hb : answer c req = some b) :
    (b.key, b.sig) ∉ s.answered.map fun a => (a.key, a.sig) := by
  obtain ⟨hage, hnone, -, b', hb', hverify, hnonce, hmsg, hstamp⟩ := handleChallenge_ok hans
  obtain rfl : b = b' := Option.some.inj (hb.symm.trans hb')
  obtain ⟨hcolon, -, hsame⟩ := hok b hb hverify
  intro hmem
  obtain ⟨a, ha, heq⟩ := List.mem_map.mp hmem
  obtain ⟨hkey, hsig⟩ := Prod.mk.inj heq
  obtain ⟨hacolon, id, hamsg⟩ := h.spelled a ha
  -- one message, so one nonce, and that is either remembered or too old
  have hone : a.msg = b.msg := c.verify_inj (hkey ▸ hsig ▸ h.verified a ha) hverify
  have hnonces : a.nonce = req.nonce :=
    nonce_eq_of_msg_eq hacolon hcolon (hamsg.symm.trans (hone.trans hmsg))
  rcases h.remembered a ha with ⟨expiry, hl, -⟩ | hlt
  · rw [hnonces, hnone] at hl
    cases hl
  · rw [hsame a ha hkey hsig, hstamp] at hlt
    exact absurd hage (not_le.mpr (ttl_lt_age (hlt.trans_le hclock)))

theorem guarded_request (h : Guarded c s) (hle : s.clock ≤ checked ∧ checked ≤ stored)
    (hok : Orderly c s (.request req checked stored)) {nonces' : Nonces} {resp : ChallengeResponse}
    (hans : c.handleChallenge s.nonces checked stored req = (nonces', .ok resp)) :
    Guarded c ⟨nonces', stored, s.answered ++ (answer c req).toList⟩ := by
  have hrem := remembered_handleChallenge h checked req (hle.1.trans hle.2)
  rw [hans] at hrem
  obtain ⟨-, -, hinsert, b, hb, hverify, hnonce, hmsg, hstamp⟩ := handleChallenge_ok hans
  obtain ⟨hcolon, hreached, -⟩ := hok b hb hverify
  have hfresh := fresh_of_ok h hle.1 hok hans hb
  rw [hb]
  refine ⟨?_, ?_, ?_, ?_⟩
  · exact List.forall_mem_append.mpr ⟨h.verified, by simpa using hverify⟩
  · refine List.forall_mem_append.mpr ⟨h.spelled, ?_⟩
    simpa [hnonce, hmsg, ChallengeRequest.msg] using hcolon
  · refine List.forall_mem_append.mpr ⟨hrem, ?_⟩
    have hstored : nonces'.lookup b.nonce = some (stored + nonceTTL) := by
      rw [hinsert, Assoc.lookup_insert_ite, if_pos hnonce]
    simp only [Option.toList_some, List.forall_mem_singleton, hstamp]
    exact .inl ⟨_, hstored, Int.add_le_add_right (hreached.trans hle.2) _⟩
  · rw [List.map_append, List.nodup_append]
    refine ⟨h.once, by simp, fun p hp q hq => ?_⟩
    obtain rfl : q = (b.key, b.sig) := by simpa using hq
    rintro rfl
    exact hfresh hp

theorem guarded_step (h : Guarded c s) (hok : Orderly c s e) (hstep : step c s e = some t) :
    Guarded c t := by
  cases e with
  | sweep now =>
    obtain ⟨hnow, ⟨⟩⟩ := Option.ite_none_right_eq_some.mp hstep
    exact guarded_sweep h hnow
  | request req checked stored =>
    obtain ⟨hle, hstep⟩ := Option.ite_none_right_eq_some.mp hstep
    split at hstep
    · next hans =>
      cases hstep
      exact guarded_request h hle hok hans
    · next nonces _ hans =>
      cases hstep
      have hrem := remembered_handleChallenge h checked req (hle.1.trans hle.2)
      rw [hans] at hrem
      exact { h with remembered := hrem }

/-- In a run where the timestamp and the split of the signed text are as good as signed, and no
timestamp is ahead of the clock, no signature is answered twice. -/
theorem challenge_not_replayed (c : Scheme κ σ) (now : Time) (es : List Event)
    (hok : Trace.Along (step c) (Orderly c) { clock := now } es)
    (hrun : Trace.exec (step c) { clock := now } es = some s) :
    (s.answered.map fun a => (a.key, a.sig)).Nodup := by
  have hstart : Guarded c { clock := now } :=
    ⟨List.forall_mem_nil _, List.forall_mem_nil _, List.forall_mem_nil _, List.nodup_nil⟩
  exact (Trace.exec_invariant guarded_step hstart hok hrun).once

/-- A scheme whose signatures are the messages themselves. -/
def plainScheme : Scheme String String where
  publicKey := some
  signature := some
  verify := fun _ m s => s = m
  verify_inj := by
    intro k m m' s h h'
    exact (of_decide_eq_true h).symm.trans (of_decide_eq_true h')
  sign := fun m => m
  pubB64 := "r"

/-- Two requests of one sender, and the first of them again after a sweep, when it is too late. -/
def lateReplay : List Event :=
  [.request ⟨"a", "b", 0, "p", "a:b"⟩ 0 0, .request ⟨"a", "c", 0, "p", "a:c"⟩ 1 2,
    .sweep 300000000001, .request ⟨"a", "b", 0, "p", "a:b"⟩ 300000000001 300000000002]

theorem late_replay_refused :
    ∃ s, Trace.exec (step plainScheme) {} lateReplay = some s ∧ s.answered.length = 2 ∧
      (s.answered.map fun a => (a.key, a.sig)).Nodup := by
  have hok : Trace.Along (step plainScheme) (Orderly plainScheme) {} lateReplay := by
    decide +kernel
  obtain ⟨s, hrun, hlength⟩ : ∃ s, Trace.exec (step plainScheme) {} lateReplay = some s ∧
      s.answered.length = 2 := by
    decide +kernel
  exact ⟨s, hrun, hlength, challenge_not_replayed plainScheme 0 lateReplay hok hrun⟩

/-- The message `a:b:c`, split and dated as given and handled at once. -/
def presented (challengeID nonce : String) (timestamp : Int) (now : Time) : Event :=
  .request ⟨challengeID, nonce, timestamp, "p", "a:b:c"⟩ now now

def seconds (n : Int) : Time := n * 1000000000

def answers (es : List Event) : Option (List (String × String)) :=
  (Trace.exec (step plainScheme) {} es).map fun s => s.answered.map fun a => (a.key, a.sig)

/-- A signature is answered twice if the timestamp is renewed once the nonce has been swept, if the
text is split in another place, and, with its own timestamp, if that was ahead of the clock or so
far ahead that its age overflows. -/
theorem challenge_replayed :
    answers [presented "a:b" "c" 0 0, .sweep (seconds 301), presented "a:b" "c" 400 (seconds 400)] =
      some [("p", "a:b:c"), ("p", "a:b:c")] ∧
    answers [presented "a:b" "c" 0 0, presented "a" "b:c" 0 (seconds 1)] =
      some [("p", "a:b:c"), ("p", "a:b:c")] ∧
    answers [presented "a:b" "c" 200 0, .sweep (seconds 301),
      presented "a:b" "c" 200 (seconds 400)] =
      some [("p", "a:b:c"), ("p", "a:b:c")] ∧
    answers [presented "a:b" "c" 1000000000000 0, .sweep (seconds 301),
        presented "a:b" "c" 1000000000000 (seconds 86400)] =
      some [("p", "a:b:c"), ("p", "a:b:c")] := by
  decide +kernel

end Registry

end Aquifer.L8
