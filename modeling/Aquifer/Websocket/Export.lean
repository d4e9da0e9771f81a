import Mathlib.Data.Nat.Log
import Mathlib.Tactic.Ring
import Aquifer.Jobs
import Aquifer.Lib.Trace

/-! The transcript exporter: batches filled from a consumer group's pending messages, a batch size
that a refusal halves, and the acknowledgements that follow. -/
namespace Aquifer.Websocket

/-- An entry of the export stream as a read returns it, with the encoded size of its event. An entry
that cannot be decoded has none; one that was trimmed while pending is read without its fields. -/
structure Message where
  id : Nat
  size : Option Nat
deriving DecidableEq, Repr

structure ExportConfig where
  batchSize : Int
  maxBatchBytes : Int

/-- The receiver's answer to a batch. -/
inductive PostResult
  | ok
  | tooLarge
  | failed
deriving DecidableEq, Repr

structure Post where
  events : List Message
  answer : PostResult
deriving DecidableEq, Repr

/-- This node's messages in the consumer group, those other nodes have left unacknowledged for long,
those nobody has read; the exporter's own fields, with the messages it is about to acknowledge; and
all it has posted and acknowledged. -/
structure Exporter where
  pending : List Message := []
  stale : List Message := []
  fresh : List Message := []
  limit : Int
  successes : Nat := 0
  acking : Option (List Message) := none
  posts : List Post := []
  acked : List Message := []

inductive ExportEvent
  | append (m : Message)
  | trim (id : Nat)
  /-- Other nodes read some of the new messages, leave these for long, and claim those of this
  node's. -/
  | others (taken : Nat) (stale claimed : List Message)
  /-- `exportOnce` up to the receiver's answer, where a scan for stale messages finds these. -/
  | send (claimed : List Message) (answer : PostResult)
  /-- The acknowledgement; one that returns an error may have taken effect. -/
  | ack (ok took : Bool)
  | restart

/-- `Count`: only a positive one limits a read. -/
def upTo (limit : Int) (messages : List Message) : List Message :=
  if 0 < limit then messages.take limit.toNat else messages

/-- The server finds messages by their ids, whatever has become of their fields. -/
def without (messages ids : List Message) : List Message :=
  messages.filter fun m => m.id ∉ ids.map Message.id

/-- The loop that fills a batch: its events, and the messages to acknowledge with it. -/
def fill (maxBatchBytes : Int) : List Message → List Message → List Message → Nat →
    List Message × List Message
  | [], events, ids, _ => (events, ids)
  | m :: rest, events, ids, size =>
    match m.size with
    | none => fill maxBatchBytes rest events (ids ++ [m]) size
    | some encoded =>
      if events ≠ [] ∧ maxBatchBytes < size + encoded then (events, ids)
      else fill maxBatchBytes rest (events ++ [m]) (ids ++ [m]) (size + encoded)

namespace Exporter

variable {cfg : ExportConfig} {s t : Exporter} {e : ExportEvent} {claimed : List Message}

/-- `StartExport`. -/
def start (cfg : ExportConfig) : Exporter := { limit := cfg.batchSize }

/-- The three reads of `exportOnce`: this node's messages, then stale ones, then new ones. -/
def read (s : Exporter) (claimed : List Message) : List Message × Exporter :=
  if s.pending ≠ [] then (upTo s.limit s.pending, s)
  else if claimed ≠ [] then
    (claimed, { s with pending := claimed, stale := without s.stale claimed })
  else
    let messages := upTo s.limit s.fresh
    (messages, { s with pending := messages, fresh := s.fresh.drop messages.length })

/-- What the answer to a batch makes of the exporter. -/
def answered (s : Exporter) (events ids : List Message) : PostResult → Exporter
  | .tooLarge =>
    if 1 < events.length then
      { s with limit := max 1 ((events.length / 2 : Nat) : Int), successes := 0 }
    else { s with acking := some ids }
  | .failed => s
  | .ok => { s with acking := some ids }

def send (cfg : ExportConfig) (s : Exporter) (claimed : List Message) (answer : PostResult) :
    Exporter :=
  let (messages, s) := s.read claimed
  if messages = [] then s
  else
    let (events, ids) := fill cfg.maxBatchBytes messages [] [] 0
    if events = [] then { s with acking := some ids }
    else { s.answered events ids answer with posts := s.posts ++ [⟨events, answer⟩] }

/-- `webSocketExportGrowAfter`. -/
def growAfter : Nat := 10

/-- The end of `exportOnce`: the limit grows back after enough batches in a row. -/
def grow (cfg : ExportConfig) (s : Exporter) : Exporter :=
  if s.limit < cfg.batchSize then
    if growAfter ≤ s.successes + 1 then
      { s with limit := min cfg.batchSize (int64 (s.limit * 2)), successes := 0 }
    else { s with successes := s.successes + 1 }
  else s

def acknowledge (s : Exporter) (ids : List Message) : Exporter :=
  { s with acked := s.acked ++ ids, pending := without s.pending ids }

/-- A message whose entry is trimmed: nobody reads it any more, unless it is pending. -/
def trim (s : Exporter) (id : Nat) : Exporter :=
  let lose (m : Message) : Message := if m.id = id then { m with size := none } else m
  { s with pending := s.pending.map lose, stale := s.stale.map lose,
           fresh := s.fresh.filter fun m => m.id ≠ id }

def step (cfg : ExportConfig) (s : Exporter) : ExportEvent → Option Exporter
  | .append m => some { s with fresh := s.fresh ++ [m] }
  | .trim id => some (s.trim id)
  | .others taken stale claimed =>
    some { s with fresh := s.fresh.drop taken, stale := stale,
                  pending := without s.pending claimed }
  | .send claimed answer =>
    if s.acking = none ∧ (∀ m ∈ claimed, m ∈ s.stale) ∧
        (0 < s.limit → claimed.length ≤ s.limit.toNat) then
      some (s.send cfg claimed answer)
    else none
  | .ack ok took =>
    s.acking.map fun ids =>
      let s := { s with acking := none }
      if ok then (s.acknowledge ids).grow cfg else if took then s.acknowledge ids else s
  | .restart => some { s with limit := cfg.batchSize, successes := 0, acking := none }

/-! ### One batch -/

section Fill

variable {maxBatchBytes : Int} {messages events ids : List Message} {m : Message} {size : Nat}

/-- Whatever is acknowledged with a batch is one of its events or cannot be decoded. -/
theorem mem_fill (h : ∀ m ∈ ids, m ∈ events ∨ m.size = none) :
    ∀ m ∈ (fill maxBatchBytes messages events ids size).2,
      m ∈ (fill maxBatchBytes messages events ids size).1 ∨ m.size = none := by
  fun_induction fill maxBatchBytes messages events ids size with
  | case1 | case3 => exact h
  | case2 m rest events ids size hsize ih =>
    exact ih (List.forall_mem_append.mpr ⟨h, by simp [hsize]⟩)
  | case4 m rest events ids size encoded hsize hroom ih =>
    refine ih (List.forall_mem_append.mpr ⟨fun b hb => ?_, by simp⟩)
    exact (h b hb).imp_left fun hmem => List.mem_append_left _ hmem

theorem length_fill_le :
    (fill maxBatchBytes messages events ids size).1.length ≤ events.length + messages.length := by
  fun_induction fill maxBatchBytes messages events ids size with
  | case1 | case3 => exact Nat.le_add_right _ _
  | case2 m rest events ids size hsize ih =>
    rw [List.length_cons]
    omega
  | case4 m rest events ids size encoded hsize hroom ih =>
    simp only [List.length_append, List.length_cons, List.length_nil] at ih ⊢
    omega

theorem length_le_fill : ids.length ≤ (fill maxBatchBytes messages events ids size).2.length := by
  fun_induction fill maxBatchBytes messages events ids size with
  | case1 | case3 => exact le_rfl
  | case2 m rest events ids size hsize ih =>
    rw [List.length_append] at ih
    omega
  | case4 m rest events ids size encoded hsize hroom ih =>
    rw [List.length_append] at ih
    omega

/-- The first message is always taken. -/
theorem fill_ne_nil (h : messages ≠ []) : (fill maxBatchBytes messages [] [] 0).2 ≠ [] := by
  obtain ⟨m, rest, rfl⟩ := List.exists_cons_of_ne_nil h
  have hpos {evs : List Message} {n : Nat} : (fill maxBatchBytes rest evs [m] n).2 ≠ [] := by
    have hle : [m].length ≤ (fill maxBatchBytes rest evs [m] n).2.length := length_le_fill
    exact List.ne_nil_of_length_pos hle
  cases hsize : m.size with
  | none => simpa [fill, hsize] using hpos
  | some encoded => simpa [fill, hsize] using hpos

end Fill

theorem length_upTo_le {limit : Int} (h : 0 < limit) (messages : List Message) :
    (upTo limit messages).length ≤ limit.toNat := by
  rw [upTo, if_pos h]
  exact List.length_take_le _ _

/-- A read takes no more messages than the limit and leaves the exporter's own fields alone. -/
theorem read_spec (hclaim : 0 < s.limit → claimed.length ≤ s.limit.toNat) :
    (0 < s.limit → (s.read claimed).1.length ≤ s.limit.toNat) ∧
      ∃ pending stale fresh,
        (s.read claimed).2 = { s with pending := pending, stale := stale, fresh := fresh } := by
  unfold read
  split
  · exact ⟨fun h => length_upTo_le h _, s.pending, s.stale, s.fresh, rfl⟩
  split
  · exact ⟨hclaim, _, _, _, rfl⟩
  · exact ⟨fun h => length_upTo_le h _, _, _, _, rfl⟩

/-- What one `exportOnce` does up to the answer: nothing, if there is nothing to send; or it posts
a batch of at most `limit` events, or has none to post, and is left with the messages to
acknowledge. -/
theorem send_cases (cfg : ExportConfig) (answer : PostResult)
    (hclaim : 0 < s.limit → claimed.length ≤ s.limit.toNat) :
    ∃ pending stale fresh events ids,
      (∀ m ∈ ids, m ∈ events ∨ m.size = none) ∧
      let r := { s with pending := pending, stale := stale, fresh := fresh }
      (s.send cfg claimed answer = r ∨
        (ids ≠ [] ∧ events = [] ∧ s.send cfg claimed answer = { r with acking := some ids }) ∨
        (ids ≠ [] ∧ events ≠ [] ∧ (0 < s.limit → events.length ≤ s.limit.toNat) ∧
          s.send cfg claimed answer =
            { r.answered events ids answer with posts := s.posts ++ [⟨events, answer⟩] })) := by
  obtain ⟨hlen, pending, stale, fresh, hread⟩ := read_spec hclaim
  refine ⟨pending, stale, fresh, (fill cfg.maxBatchBytes (s.read claimed).1 [] [] 0).1,
    (fill cfg.maxBatchBytes (s.read claimed).1 [] [] 0).2, mem_fill (by simp), ?_⟩
  simp only [send, hread]
  split
  · exact .inl rfl
  · next hne =>
    have hids : (fill cfg.maxBatchBytes (s.read claimed).1 [] [] 0).2 ≠ [] := fill_ne_nil hne
    have hle : (fill cfg.maxBatchBytes (s.read claimed).1 [] [] 0).1.length ≤
        0 + (s.read claimed).1.length := length_fill_le
    right
    split
    · next hev => exact .inl ⟨hids, hev, rfl⟩
    · next hev =>
      refine .inr ⟨hids, hev, fun hpos => ?_, rfl⟩
      have := hlen hpos
      omega

/-! ### What is acknowledged -/

/-- A message the exporter may acknowledge, given all it has posted. -/
def Allowed (posts : List Post) (m : Message) : Prop :=
  m.size = none ∨ ∃ p ∈ posts, m ∈ p.events ∧
    (p.answer = .ok ∨ p.answer = .tooLarge ∧ p.events = [m])

theorem Allowed.append {posts more : List Post} {m : Message} (h : Allowed posts m) :
    Allowed (posts ++ more) m := by
  refine h.imp_right ?_
  rintro ⟨p, hp, hrest⟩
  exact ⟨p, List.mem_append_left _ hp, hrest⟩

structure Accounted (s : Exporter) : Prop where
  acked : ∀ m ∈ s.acked, Allowed s.posts m
  acking : ∀ ids ∈ s.acking, ids ≠ [] ∧ ∀ m ∈ ids, Allowed s.posts m

/-- After an answer the exporter is left with messages to acknowledge only if the batch was taken,
or was a single event that is too large. -/
theorem answered_cases (s : Exporter) (events ids : List Message) (answer : PostResult) :
    (s.answered events ids answer).acked = s.acked ∧
      ((s.answered events ids answer).acking = s.acking ∨
        (s.answered events ids answer).acking = some ids ∧
          (answer = .ok ∨ answer = .tooLarge ∧ events.length ≤ 1)) := by
  cases answer with
  | ok => exact ⟨rfl, .inr ⟨rfl, .inl rfl⟩⟩
  | failed => exact ⟨rfl, .inl rfl⟩
  | tooLarge =>
    by_cases h : 1 < events.length
    · simp [answered, h]
    · exact ⟨by simp [answered, h], .inr ⟨by simp [answered, h], .inr ⟨rfl, not_lt.mp h⟩⟩⟩

theorem allowed_of_answer {events ids : List Message} {answer : PostResult} (posts : List Post)
    (hmem : ∀ m ∈ ids, m ∈ events ∨ m.size = none) (hev : events ≠ [])
    (hgood : answer = .ok ∨ answer = .tooLarge ∧ events.length ≤ 1) :
    ∀ m ∈ ids, Allowed (posts ++ [⟨events, answer⟩]) m := by
  intro m hm
  rcases hmem m hm with hin | hnone
  · refine .inr ⟨⟨events, answer⟩, by simp, hin, hgood.imp_right fun hone => ⟨hone.1, ?_⟩⟩
    obtain ⟨b, rfl⟩ := List.length_eq_one_iff.mp
      (le_antisymm hone.2 (List.length_pos_iff.mpr hev))
    rw [List.mem_singleton.mp hin]
  · exact .inl hnone

theorem accounted_send (answer : PostResult) (h : Accounted s) (hacking : s.acking = none)
    (hclaim : 0 < s.limit → claimed.length ≤ s.limit.toNat) :
    Accounted (s.send cfg claimed answer) := by
  obtain ⟨pending, stale, fresh, events, ids, hmem, hsend⟩ := send_cases cfg answer hclaim
  rcases hsend with hsend | ⟨hids, rfl, hsend⟩ | ⟨hids, hev, -, hsend⟩ <;> rw [hsend]
  · exact { h with }
  · refine ⟨h.acked, fun ids' hids' => ?_⟩
    obtain rfl := Option.some.inj hids'
    exact ⟨hids, fun m hm => .inl ((hmem m hm).resolve_left List.not_mem_nil)⟩
  · obtain ⟨hacked, hans⟩ := answered_cases
      { s with pending := pending, stale := stale, fresh := fresh } events ids answer
    refine ⟨fun m hm => ?_, fun ids' hids' => ?_⟩
    · exact (h.acked m (hacked ▸ hm)).append
    · rcases hans with hsame | ⟨hsome, hgood⟩
      · rw [hsame, hacking] at hids'
        cases hids'
      · rw [hsome] at hids'
        obtain rfl := Option.some.inj hids'
        exact ⟨hids, allowed_of_answer s.posts hmem hev hgood⟩

theorem grow_frame (cfg : ExportConfig) (s : Exporter) :
    (s.grow cfg).acked = s.acked ∧ (s.grow cfg).posts = s.posts ∧
    (s.grow cfg).acking = s.acking := by
  unfold grow
  split
  · split <;> exact ⟨rfl, rfl, rfl⟩
  · exact ⟨rfl, rfl, rfl⟩

theorem accounted_step (h : Accounted s) (hstep : step cfg s e = some t) : Accounted t := by
  cases e with
  | append | trim | others =>
    cases hstep
    exact { h with }
  | restart =>
    cases hstep
    exact ⟨h.acked, by simp⟩
  | send claimed answer =>
    obtain ⟨⟨hnone, -, hclaim⟩, ⟨⟩⟩ := Option.ite_none_right_eq_some.mp hstep
    exact accounted_send answer h hnone hclaim
  | ack ok took =>
    obtain ⟨ids, hids, rfl⟩ := Option.map_eq_some_iff.mp hstep
    have hacked : Accounted ({ s with acking := none }.acknowledge ids) :=
      ⟨List.forall_mem_append.mpr ⟨h.acked, (h.acking ids hids).2⟩, by simp [acknowledge]⟩
    cases ok with
    | true =>
      obtain ⟨ha, hp, hk⟩ := grow_frame cfg ({ s with acking := none }.acknowledge ids)
      simp only [if_true]
      exact ⟨by rw [ha, hp]; exact hacked.acked, by rw [hk, hp]; exact hacked.acking⟩
    | false =>
      cases took with
      | true => exact hacked
      | false => exact ⟨h.acked, by simp⟩

/-! ### Refused batches -/

def refusals (posts : List Post) : Nat := posts.countP fun p => p.answer = .tooLarge

/-- Neither a restart nor an acknowledgement that fails. -/
def Undisturbed : ExportEvent → Prop
  | .restart => False
  | .ack ok _ => ok = true
  | .append _ | .trim _ | .others _ _ _ | .send _ _ => True

/-- How far a batch of `n` events has been halved since it was refused, unless something has been
acknowledged since: each refusal has at least halved the limit. -/
def Halved (n base : Nat) (acked : List Message) (s : Exporter) : Prop :=
  acked.length < s.acked.length ∨
    s.acked = acked ∧ ∃ j, refusals s.posts = base + j ∧
      ((s.acking = none ∧ 0 < s.limit ∧ s.limit.toNat * 2 ^ (j + 1) ≤ n) ∨
        ((∃ ids, s.acking = some ids ∧ ids ≠ []) ∧ 2 ^ j ≤ n))

@[simp] theorem refusals_append (posts : List Post) (p : Post) :
    refusals (posts ++ [p]) = refusals posts + if p.answer = .tooLarge then 1 else 0 := by
  simp [refusals, List.countP_append, List.countP_singleton]

/-- A refusal halves the batch it refuses, or is left with a single event to acknowledge. -/
theorem halved_answered {n base j : Nat} {acked events ids : List Message}
    (hacked : (s.answered events ids .tooLarge).acked = acked) (hacking : s.acking = none)
    (hrefused : refusals s.posts + 1 = base + j) (hlen : events.length * 2 ^ j ≤ n)
    (hev : events ≠ []) (hids : ids ≠ []) :
    Halved n base acked { s.answered events ids .tooLarge with
      posts := s.posts ++ [⟨events, .tooLarge⟩] } := by
  have hpos : 0 < events.length := List.length_pos_iff.mpr hev
  by_cases h : 1 < events.length
  · refine .inr ⟨hacked, j, by simpa using hrefused, .inl ⟨?_, ?_, ?_⟩⟩
    · simpa [answered, h] using hacking
    · simp [answered, h]
    · have hlimit : (max 1 ((events.length / 2 : Nat) : Int)).toNat = events.length / 2 := by omega
      simp only [answered, h, if_true, hlimit]
      calc events.length / 2 * 2 ^ (j + 1) = events.length / 2 * 2 * 2 ^ j := by ring
        _ ≤ events.length * 2 ^ j := Nat.mul_le_mul_right _ (Nat.div_mul_le_self _ _)
        _ ≤ n := hlen
  · refine .inr ⟨hacked, j, by simpa using hrefused, .inr ⟨⟨ids, ?_, hids⟩, ?_⟩⟩
    · simp [answered, h]
    · exact (Nat.le_mul_of_pos_left _ hpos).trans hlen

theorem pow_le_of_mul_le {k j n : Nat} (hk : 0 < k) (h : k * 2 ^ (j + 1) ≤ n) : 2 ^ j ≤ n :=
  calc 2 ^ j ≤ 2 ^ (j + 1) := Nat.pow_le_pow_right (by omega) (by omega)
    _ ≤ k * 2 ^ (j + 1) := Nat.le_mul_of_pos_left _ hk
    _ ≤ n := h

theorem halved_of_refusal {events : List Message}
    (hsend : step cfg s (.send claimed .tooLarge) = some t)
    (hposts : t.posts = s.posts ++ [⟨events, .tooLarge⟩]) :
    Halved events.length (refusals t.posts) t.acked t := by
  obtain ⟨⟨hnone, -, hclaim⟩, ⟨⟩⟩ := Option.ite_none_right_eq_some.mp hsend
  obtain ⟨pending, stale, fresh, events', ids, -, hcases⟩ := send_cases cfg .tooLarge hclaim
  rcases hcases with hs | ⟨-, -, hs⟩ | ⟨hids, hev, -, hs⟩ <;> rw [hs] at hposts ⊢
  · exact absurd hposts.symm (by simp)
  · exact absurd hposts.symm (by simp)
  · obtain rfl : events' = events := by simpa using hposts
    refine halved_answered (s := { s with pending := pending, stale := stale, fresh := fresh })
      (j := 0) rfl hnone ?_ ?_ hev hids
    · simp
    · simp

theorem halved_send {n base : Nat} {acked : List Message} (answer : PostResult)
    (h : Halved n base acked s) (hacking : s.acking = none)
    (hclaim : 0 < s.limit → claimed.length ≤ s.limit.toNat) :
    Halved n base acked (s.send cfg claimed answer) := by
  obtain ⟨pending, stale, fresh, events, ids, -, hsend⟩ := send_cases cfg answer hclaim
  rcases h with hlt | ⟨rfl, j, hj, ⟨-, hpos, hle⟩ | ⟨⟨ids, hsome, -⟩, -⟩⟩
  · left
    rcases hsend with hsend | ⟨-, -, hsend⟩ | ⟨-, -, -, hsend⟩ <;> rw [hsend]
    · exact hlt
    · exact hlt
    · have hacked := (answered_cases { s with pending := pending, stale := stale, fresh := fresh }
        events ids answer).1
      exact hlt.trans_eq (congrArg List.length hacked).symm
  · have hone : 2 ^ j ≤ n := pow_le_of_mul_le (by omega) hle
    rcases hsend with hsend | ⟨hids, -, hsend⟩ | ⟨hids, hev, hlen, hsend⟩ <;> rw [hsend]
    · exact .inr ⟨rfl, j, hj, .inl ⟨hacking, hpos, hle⟩⟩
    · exact .inr ⟨rfl, j, hj, .inr ⟨⟨ids, rfl, hids⟩, hone⟩⟩
    · cases answer with
      | ok => exact .inr ⟨rfl, j, by simpa using hj, .inr ⟨⟨ids, rfl, hids⟩, hone⟩⟩
      | failed => exact .inr ⟨rfl, j, by simpa using hj, .inl ⟨hacking, hpos, hle⟩⟩
      | tooLarge =>
        refine halved_answered (s := { s with pending := pending, stale := stale, fresh := fresh })
          (j := j + 1) (answered_cases _ events ids .tooLarge).1 hacking ?_ ?_ hev hids
        · dsimp only
          omega
        · exact (Nat.mul_le_mul_right _ (hlen hpos)).trans hle
  · exact absurd (hacking.symm.trans hsome) (by simp)

theorem halved_step {n base : Nat} {acked : List Message} (h : Halved n base acked s)
    (hok : Undisturbed e) (hstep : step cfg s e = some t) : Halved n base acked t := by
  cases e with
  | append | trim | others =>
    cases hstep
    exact h
  | restart => exact hok.elim
  | send claimed answer =>
    obtain ⟨⟨hnone, -, hclaim⟩, ⟨⟩⟩ := Option.ite_none_right_eq_some.mp hstep
    exact halved_send answer h hnone hclaim
  | ack ok took =>
    obtain rfl : ok = true := hok
    obtain ⟨ids, hids, rfl⟩ := Option.map_eq_some_iff.mp hstep
    left
    simp only [if_true, (grow_frame cfg _).1, acknowledge, List.length_append]
    rcases h with hlt | ⟨rfl, j, -, ⟨hnone, -⟩ | ⟨⟨ids', hsome, hne⟩, -⟩⟩
    · omega
    · exact absurd (hnone.symm.trans hids) (by simp)
    · obtain rfl : ids' = ids := Option.some.inj (hsome.symm.trans hids)
      have := List.length_pos_iff.mpr hne
      omega

/-- Every message the exporter acknowledges was part of a batch that was taken, cannot be decoded,
or was the only event of a batch that was too large. And after a refusal of a batch, as long as
nothing is acknowledged, there are at most as many more refusals as the batch can be halved. -/
theorem exporter_acknowledges_allowed (cfg : ExportConfig) (es : List ExportEvent)
    (hrun : Trace.exec (step cfg) (start cfg) es = some s) :
    (∀ m ∈ s.acked, Allowed s.posts m) ∧
      ∀ claimed events s₁, step cfg s (.send claimed .tooLarge) = some s₁ →
        s₁.posts = s.posts ++ [⟨events, .tooLarge⟩] →
        ∀ es' t, (∀ e ∈ es', Undisturbed e) → Trace.exec (step cfg) s₁ es' = some t →
          t.acked = s₁.acked →
          refusals t.posts ≤ refusals s₁.posts + Nat.log 2 events.length := by
  have hstart : Accounted (start cfg) := ⟨List.forall_mem_nil _, by simp [start]⟩
  have hacc := Trace.exec_always accounted_step hstart hrun
  refine ⟨hacc.acked, ?_⟩
  intro claimed events s₁ hsend hposts es' t hok hrun' hacked
  have hlast := Trace.exec_invariant halved_step
    (halved_of_refusal hsend hposts) (Trace.along_of_forall hok _) hrun'
  rcases hlast with hlt | ⟨-, j, hj, hhalf⟩
  · exact absurd (congrArg List.length hacked) hlt.ne'
  · have hle : 2 ^ j ≤ events.length := by
      rcases hhalf with ⟨-, hpos, hle⟩ | ⟨-, hle⟩
      · exact pow_le_of_mul_le (by omega) hle
      · exact hle
    rw [hj]
    exact Nat.add_le_add_left (Nat.le_log_of_pow_le (by omega) hle) _

def smallConfig : ExportConfig := ⟨8, 100⟩

/-- One message exported, one that cannot be decoded, and four more. -/
def sixMessages : List ExportEvent :=
  [.append ⟨1, some 5⟩, .append ⟨2, none⟩, .send [] .ok, .ack true true, .append ⟨3, some 5⟩,
    .append ⟨4, some 5⟩, .append ⟨5, some 5⟩, .append ⟨6, some 5⟩]

/-- A batch of four, then of two, then a single event are refused; the last is then skipped. -/
theorem refused_batch_halved :
    ∃ s s₁ t, Trace.exec (step smallConfig) (start smallConfig) sixMessages = some s ∧
      step smallConfig s (.send [] .tooLarge) = some s₁ ∧
      Trace.exec (step smallConfig) s₁ [.send [] .tooLarge, .send [] .tooLarge] = some t ∧
      t.acking = some [⟨3, some 5⟩] ∧ s.acked.length = 2 ∧ (∀ m ∈ s.acked, Allowed s.posts m) ∧
      refusals t.posts ≤ refusals s₁.posts + 2 := by
  obtain ⟨s, hrun, hlen, s₁, hsend, hposts, t, hrun', hacking, hacked⟩ :
      ∃ s, Trace.exec (step smallConfig) (start smallConfig) sixMessages = some s ∧
        s.acked.length = 2 ∧ ∃ s₁, step smallConfig s (.send [] .tooLarge) = some s₁ ∧
        s₁.posts = s.posts ++
          [⟨[⟨3, some 5⟩, ⟨4, some 5⟩, ⟨5, some 5⟩, ⟨6, some 5⟩], .tooLarge⟩] ∧
        ∃ t, Trace.exec (step smallConfig) s₁ [.send [] .tooLarge, .send [] .tooLarge] = some t ∧
          t.acking = some [⟨3, some 5⟩] ∧ t.acked = s₁.acked := by
    decide +kernel
  obtain ⟨hallowed, hhalved⟩ := exporter_acknowledges_allowed smallConfig sixMessages hrun
  refine ⟨s, s₁, t, hrun, hsend, hrun', hacking, hlen, hallowed, ?_⟩
  exact hhalved [] _ s₁ hsend hposts _ t (by simp [Undisturbed]) hrun' hacked

end Exporter

end Aquifer.Websocket
