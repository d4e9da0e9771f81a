import Aquifer.Websocket.Protocol

/-! The messages of one session: a client's command is recorded in the transcript, acknowledged and
put into a channel, from which the upstream connection that is open takes it; what an upstream sends
is recorded with the number of its connection. -/
namespace Aquifer.Websocket

inductive ClientError
  | invalidJSON
  | notCommand
  | messageID
  | payload
deriving DecidableEq

def ClientError.text (e : ClientError) : String :=
  "invalid aqueduct websocket message: " ++
    match e with
    | .invalidJSON => "invalid json"
    | .notCommand => "clients may only send command messages"
    | .messageID => "message_id is required"
    | .payload => "payload is required"

/-- `decodeClientWebSocketMessage`. What is no JSON object, or has a field of another type, is
`none`. -/
def decodeClientWebSocketMessage (raw : Option EnvelopeText) : Except ClientError Envelope :=
  match raw.bind EnvelopeText.unmarshal with
  | none => .error .invalidJSON
  | some msg =>
    if msg.type ≠ "command" then .error .notCommand
    else if msg.messageID = "" then .error .messageID
    else if msg.payload = [] then .error .payload
    else .ok msg

/-- An entry of the session's transcript. -/
structure Logged where
  id : StreamID
  direction : Direction
  message : Envelope
deriving DecidableEq

/-- What `readClient` writes to the client. -/
inductive Said
  | recorded (message : Envelope) (id : StreamID)
  | error (reason : String)
deriving DecidableEq

def Said.envelope : Said → Envelope
  | .recorded message id =>
    { type := "command_recorded", messageID := message.messageID, streamID := id.text }
  | .error reason => { type := "error", reason }

/-- The command that is acknowledged, with the entry it is acknowledged as. -/
def Said.ack : Said → Option (StreamID × Envelope)
  | .recorded message id => some (id, message)
  | .error _ => none

/-- A command taken from the channel for one connection, and whether it could be written to it. -/
structure Sent where
  generation : Int
  command : Envelope
  ok : Bool
deriving DecidableEq

/-- The end of one attempt of `retryStore` to append an entry: an error may hide an entry that was
recorded. -/
inductive Attempt
  | ok (id : StreamID)
  | failed
  | unanswered (id : StreamID)
deriving DecidableEq

/-- The entry an attempt leaves in the transcript, if it leaves one. -/
def Attempt.id : Attempt → Option StreamID
  | .ok id | .unanswered id => some id
  | .failed => none

namespace Relay

/-- Where `readClient` is: reading; in `retryStore` with a command, after a failed attempt or not;
with a recorded command to acknowledge; with an acknowledged one for the channel; returned, with an
acknowledged one that did not get into the channel or none. -/
inductive Reader
  | reading
  | recording (message : Envelope) (failed : Bool)
  | recorded (message : Envelope) (id : StreamID)
  | sending (message : Envelope)
  | returned (left : Option Envelope)
deriving DecidableEq

/-- The goroutine of `relayUpstream` that reads from the upstream. -/
inductive Receiver
  | reading
  | recording (message : Envelope) (failed : Bool)
  | returned
deriving DecidableEq

/-- The one that writes to it. -/
inductive Sender
  | waiting
  | writing (command : Envelope)
  | returned
deriving DecidableEq

structure Link where
  generation : Int
  receiver : Receiver := .reading
  sender : Sender := .waiting
deriving DecidableEq

end Relay

/-- `generation` is the manager's counter, which every session's connections advance. -/
structure Relay where
  transcript : List Logged := []
  outbox : List Said := []
  commands : List Envelope := []
  reader : Relay.Reader := .reading
  link : Option Relay.Link := none
  generation : Int := 0
  sent : List Sent := []

namespace Relay

inductive LinkAct
  | receive (raw : Option EnvelopeText)
  | record (a : Attempt)
  | giveUp
  | readFails
  | take
  | write (ok : Bool)
  | contextDone
  | close
deriving DecidableEq

inductive Event
  /-- A message of the client's; `written` says whether an error could be written back. -/
  | receive (raw : Option EnvelopeText) (draining written : Bool)
  | record (a : Attempt)
  | giveUp
  | acknowledge (ok : Bool)
  | push
  | contextDone
  | readFails
  /-- A connection is made, after so many others of the manager's. -/
  | connect (others : Nat)
  | upstream (a : LinkAct)
deriving DecidableEq

def capacity : Nat := 128

def say (s : Relay) (written : Bool) (reason : String) : Relay :=
  if written then { s with outbox := s.outbox ++ [.error reason] } else s

/-- An attempt to append a message. The stream's ids grow. -/
def append (s : Relay) (direction : Direction) (message : Envelope) (a : Attempt) : Option Relay :=
  match a.id with
  | none => some s
  | some id =>
    if ∀ e ∈ s.transcript, e.id < id then
      some { s with transcript := s.transcript ++ [⟨id, direction, message⟩] }
    else none

/-- Where an attempt leaves `readClient`. -/
def Reader.after (message : Envelope) : Attempt → Reader
  | .ok id => .recorded message id
  | .failed | .unanswered _ => .recording message true

def Receiver.after (message : Envelope) : Attempt → Receiver
  | .ok _ => .reading
  | .failed | .unanswered _ => .recording message true

def setLink (s : Relay) (l : Link) : Relay := { s with link := some l }

def linkStep (s : Relay) (l : Link) : LinkAct → Option Relay
  | .receive raw =>
    if l.receiver = .reading then
      match decodeBackendWebSocketMessage raw with
      | .error _ => some (s.setLink { l with receiver := .returned })
      | .ok message =>
        -- capacity goes to the scheduler and is not recorded
        if message.type = "aqueduct.capacity" then some s
        else some (s.setLink { l with
          receiver := .recording { message with generation := l.generation } false })
    else none
  | .record a =>
    match l.receiver with
    | .recording message _ =>
      (s.append .backend message a).map fun t =>
        t.setLink { l with receiver := .after message a }
    | _ => none
  | .giveUp =>
    match l.receiver with
    | .recording _ true => some (s.setLink { l with receiver := .returned })
    | _ => none
  | .readFails =>
    if l.receiver = .reading then some (s.setLink { l with receiver := .returned }) else none
  -- the select may take a command although the relay's context is done
  | .take =>
    match l.sender, s.commands with
    | .waiting, command :: rest =>
      some { s.setLink { l with sender := .writing command } with commands := rest }
    | _, _ => none
  | .write ok =>
    match l.sender with
    | .writing command =>
      some { s.setLink { l with sender := if ok then .waiting else .returned } with
        sent := s.sent ++ [⟨l.generation, command, ok⟩] }
    | _ => none
  | .contextDone =>
    if l.sender = .waiting then some (s.setLink { l with sender := .returned }) else none
  | .close =>
    if l.receiver = .returned ∧ l.sender = .returned then some { s with link := none } else none

def step (s : Relay) : Event → Option Relay
  | .receive raw draining written =>
    if s.reader = .reading then
      match decodeClientWebSocketMessage raw with
      | .error e => some (s.say written e.text)
      | .ok message =>
        if draining then some (s.say written "aquifer is draining")
        else some { s with reader := .recording message false }
    else none
  | .record a =>
    match s.reader with
    | .recording message _ =>
      (s.append .client message a).map fun t => { t with reader := .after message a }
    | _ => none
  | .giveUp =>
    match s.reader with
    | .recording _ true => some { s with reader := .returned none }
    | _ => none
  | .acknowledge ok =>
    match s.reader with
    | .recorded message id =>
      if ok then
        some { s with outbox := s.outbox ++ [.recorded message id], reader := .sending message }
      else some { s with reader := .returned none }
    | _ => none
  | .push =>
    match s.reader with
    | .sending message =>
      if s.commands.length < capacity then
        some { s with commands := s.commands ++ [message], reader := .reading }
      else none
    | _ => none
  | .contextDone =>
    match s.reader with
    | .sending message => some { s with reader := .returned (some message) }
    | _ => none
  | .readFails => if s.reader = .reading then some { s with reader := .returned none } else none
  | .connect others =>
    if s.link.isNone then
      some { s with
        generation := s.generation + others + 1
        link := some { generation := s.generation + others + 1 } }
    else none
  | .upstream a => s.link.bind fun l => s.linkStep l a

def acks (s : Relay) : List (StreamID × Envelope) := s.outbox.filterMap Said.ack

def side (d : Direction) (transcript : List Logged) : List (StreamID × Envelope) :=
  (transcript.filter fun e => e.direction = d).map fun e => (e.id, e.message)

def clientLog (s : Relay) : List (StreamID × Envelope) := side .client s.transcript

def backendLog (s : Relay) : List Envelope := (side .backend s.transcript).map Prod.snd

/-- The acknowledged command `readClient` has not put into the channel. -/
def Reader.hand : Reader → List Envelope
  | .sending message | .returned (some message) => [message]
  | _ => []

/-- The recorded command it has not acknowledged. -/
def Reader.pending : Reader → List (StreamID × Envelope)
  | .recorded message id => [(id, message)]
  | _ => []

/-- The command that is being written to the upstream. -/
def Sender.hand : Sender → List Envelope
  | .writing command => [command]
  | _ => []

def inFlight (s : Relay) : List Envelope :=
  match s.link with
  | some l => l.sender.hand
  | none => []

/-- Connections follow one another, and the command a connection fails on is its last. -/
def Precedes (x y : Sent) : Prop :=
  x.generation ≤ y.generation ∧ (x.ok = false → x.generation < y.generation)

/-- What holds of the open connection. -/
structure Link.Fits (s : Relay) (l : Link) : Prop where
  current : l.generation = s.generation
  unbroken : l.sender ≠ .returned → ∀ x ∈ s.sent, x.generation = l.generation → x.ok = true
  marked : ∀ message failed, l.receiver = .recording message failed →
    message.generation = l.generation

structure Flow (s : Relay) : Prop where
  accounted : s.acks.map Prod.snd =
    s.sent.map Sent.command ++ s.inFlight ++ s.commands ++ s.reader.hand
  recorded : (s.acks ++ s.reader.pending).Sublist s.clientLog
  room : s.commands.length ≤ capacity
  sent_bound : ∀ x ∈ s.sent, x.generation ≤ s.generation
  sent_order : s.sent.Pairwise Precedes
  log_bound : ∀ m ∈ s.backendLog, m.generation ≤ s.generation
  log_order : s.backendLog.Pairwise fun m n => m.generation ≤ n.generation
  link : ∀ l, s.link = some l → l.Fits s

theorem flow_init : Flow {} where
  accounted := rfl
  recorded := List.Sublist.refl []
  room := Nat.zero_le _
  sent_bound := fun _ hx => nomatch hx
  sent_order := List.Pairwise.nil
  log_bound := fun _ hm => nomatch hm
  log_order := List.Pairwise.nil
  link := fun _ hl => nomatch hl

variable {s t : Relay} {message command : Envelope} {l : Link} {failed : Bool} {a : Attempt}

theorem side_append (d : Direction) (transcript : List Logged) (e : Logged) :
    side d (transcript ++ [e]) =
      side d transcript ++ if e.direction = d then [(e.id, e.message)] else [] := by
  by_cases h : e.direction = d <;> simp [side, h]

theorem append_spec {d : Direction} (happend : s.append d message a = some t) :
    a.id = none ∧ t = s ∨
      ∃ id, a.id = some id ∧ t = { s with transcript := s.transcript ++ [⟨id, d, message⟩] } := by
  unfold append at happend
  split at happend
  case h_1 hid => exact .inl ⟨hid, (Option.some.inj happend).symm⟩
  case h_2 id hid =>
    obtain ⟨-, ht⟩ := Option.ite_none_right_eq_some.mp happend
    exact .inr ⟨id, hid, (Option.some.inj ht).symm⟩

theorem flow_say (hflow : Flow s) (written : Bool) (reason : String) :
    Flow (s.say written reason) := by
  cases written with
  | false => exact hflow
  | true =>
    have hacks : (s.say true reason).acks = s.acks := by
      simp [acks, say, List.filterMap_append, Said.ack]
    exact { hflow with
      accounted := by rw [hacks]; exact hflow.accounted
      recorded := by rw [hacks]; exact hflow.recorded
      link := fun l hl => { hflow.link l hl with } }

/-- A step of `readClient` that moves no acknowledged command. -/
theorem flow_reader {r r' : Reader} (hflow : Flow s) (hreader : s.reader = r)
    (hhand : r'.hand = r.hand) (hpending : r'.pending = []) : Flow { s with reader := r' } :=
  { hflow with
    accounted := by
      show s.acks.map Prod.snd = _ ++ r'.hand
      rw [hhand, ← hreader]
      exact hflow.accounted
    recorded := by
      show (s.acks ++ r'.pending).Sublist s.clientLog
      rw [hpending, List.append_nil]
      exact (List.sublist_append_left _ _).trans hflow.recorded
    link := fun l hl => { hflow.link l hl with } }

theorem flow_record (hflow : Flow s) (hreader : s.reader = .recording message failed)
    (happend : s.append .client message a = some t) :
    Flow { t with reader := .after message a } := by
  have hafter : (Reader.after message a).hand = [] := by cases a <;> rfl
  obtain ⟨hid, rfl⟩ | ⟨id, hid, rfl⟩ := append_spec happend
  · cases a with
    | failed => exact flow_reader hflow hreader rfl rfl
    | ok => cases hid
    | unanswered => cases hid
  · have hpending : (Reader.after message a).pending.Sublist [(id, message)] := by
      cases a with
      | ok id' =>
        cases hid
        exact List.Sublist.refl _
      | failed => exact List.nil_sublist _
      | unanswered => exact List.nil_sublist _
    have hbackend : side .backend (s.transcript ++ [⟨id, .client, message⟩]) =
        side .backend s.transcript := by
      simp [side_append]
    exact { hflow with
      accounted := by
        show s.acks.map Prod.snd = _ ++ (Reader.after message a).hand
        rw [hafter, hflow.accounted, hreader]
        rfl
      recorded := by
        show (s.acks ++ _).Sublist (side .client (s.transcript ++ _))
        rw [side_append, if_pos rfl]
        exact ((List.sublist_append_left _ _).trans hflow.recorded).append hpending
      log_bound := by rw [backendLog, hbackend]; exact hflow.log_bound
      log_order := by rw [backendLog, hbackend]; exact hflow.log_order
      link := fun l hl => { hflow.link l hl with } }

/-- The acknowledgement puts the command behind all those acknowledged before it. -/
theorem flow_acknowledge {id : StreamID} (hflow : Flow s)
    (hreader : s.reader = .recorded message id) :
    Flow { s with outbox := s.outbox ++ [.recorded message id], reader := .sending message } := by
  have hacks : acks { s with
      outbox := s.outbox ++ [.recorded message id], reader := .sending message } =
      s.acks ++ [(id, message)] := by
    simp [acks, List.filterMap_append, Said.ack]
  have haccounted := hflow.accounted
  have hrecorded := hflow.recorded
  rw [hreader] at haccounted hrecorded
  simp only [Reader.hand, List.append_nil] at haccounted
  exact { hflow with
    accounted := by
      rw [hacks, List.map_append, haccounted]
      rfl
    recorded := by
      show (acks _ ++ []).Sublist s.clientLog
      rw [hacks, List.append_nil]
      exact hrecorded
    link := fun l hl => { hflow.link l hl with } }

theorem flow_push (hflow : Flow s) (hreader : s.reader = .sending message)
    (hroom : s.commands.length < capacity) :
    Flow { s with commands := s.commands ++ [message], reader := .reading } := by
  have haccounted := hflow.accounted
  have hrecorded := hflow.recorded
  rw [hreader] at haccounted hrecorded
  exact { hflow with
    accounted := by
      show s.acks.map Prod.snd = _ ++ (s.commands ++ [message]) ++ []
      rw [haccounted, List.append_nil, List.append_assoc _ s.commands]
      rfl
    recorded := hrecorded
    room := by
      show (s.commands ++ [message]).length ≤ capacity
      rw [List.length_append, List.length_singleton]
      omega
    link := fun l hl => { hflow.link l hl with } }

/-- A new connection's number is beyond every number used before. -/
theorem flow_connect (hflow : Flow s) (hlink : s.link = none) (others : Nat) :
    Flow { s with
      generation := s.generation + others + 1
      link := some { generation := s.generation + others + 1 } } := by
  have hflight : s.inFlight = [] := by simp [inFlight, hlink]
  have haccounted := hflow.accounted
  rw [hflight] at haccounted
  exact { hflow with
    accounted := haccounted
    sent_bound := fun x hx => by
      have := hflow.sent_bound x hx
      simp only
      omega
    log_bound := fun m hm => by
      have := hflow.log_bound m hm
      simp only
      omega
    link := by
      rintro l ⟨⟩
      refine ⟨rfl, fun _ x hx heq => ?_, fun _ _ hrec => nomatch hrec⟩
      have := hflow.sent_bound x hx
      simp only at heq
      omega }

/-- A step of the connection that moves no command and marks what it has to record. -/
theorem flow_link {l' : Link} (hflow : Flow s) (hlink : s.link = some l)
    (hgen : l'.generation = l.generation) (hhand : l'.sender.hand = l.sender.hand)
    (hreturned : l.sender = .returned → l'.sender = .returned)
    (hmarked : ∀ message failed, l'.receiver = .recording message failed →
      message.generation = l.generation) : Flow (s.setLink l') := by
  have hfits := hflow.link l hlink
  exact { hflow with
    accounted := by
      have haccounted := hflow.accounted
      rw [inFlight, hlink] at haccounted
      show s.acks.map Prod.snd = _ ++ l'.sender.hand ++ _ ++ _
      rw [hhand]
      exact haccounted
    link := by
      rintro k ⟨⟩
      refine ⟨hgen.trans hfits.current, fun hrun x hx heq => ?_, fun m f hrec => ?_⟩
      · exact hfits.unbroken (fun h => hrun (hreturned h)) x hx (heq.trans hgen)
      · exact (hmarked m f hrec).trans hgen.symm }

/-- The receiver's part of `flow_link`: the sender stays where it is. -/
theorem flow_receiver (hflow : Flow s) (hlink : s.link = some l) {r : Receiver}
    (hmarked : ∀ message failed, r = .recording message failed →
      message.generation = l.generation) : Flow (s.setLink { l with receiver := r }) :=
  flow_link hflow hlink rfl rfl id hmarked

/-- An attempt to record a backend's message: it carries the number of the connection, and no
message in the transcript carries a larger one. -/
theorem flow_upstream_record (hflow : Flow s) (hlink : s.link = some l)
    (hreceiver : l.receiver = .recording message failed)
    (happend : s.append .backend message a = some t) :
    Flow (t.setLink { l with receiver := .after message a }) := by
  have hfits := hflow.link l hlink
  have hgen := hfits.marked message failed hreceiver
  have hmarked : ∀ m f, Receiver.after message a = .recording m f → m.generation =
    l.generation := by
    intro m f hafter
    cases a <;> cases hafter <;> exact hgen
  obtain ⟨-, rfl⟩ | ⟨id, -, rfl⟩ := append_spec happend
  · exact flow_receiver hflow hlink hmarked
  · refine flow_receiver (?_ : Flow { s with
      transcript := s.transcript ++ [⟨id, .backend, message⟩] }) hlink hmarked
    have hclient : side .client (s.transcript ++ [⟨id, .backend, message⟩]) =
        side .client s.transcript := by
      simp [side_append]
    have hbackend : backendLog { s with transcript := s.transcript ++ [⟨id, .backend, message⟩] } =
        s.backendLog ++ [message] := by
      simp [backendLog, side_append]
    exact { hflow with
      recorded := by rw [clientLog, hclient]; exact hflow.recorded
      log_bound := by
        rw [hbackend]
        intro m hm
        obtain hm | hm := List.mem_append.mp hm
        · exact hflow.log_bound m hm
        · rw [List.mem_singleton.mp hm, hgen, hfits.current]
      log_order := by
        rw [hbackend, List.pairwise_append]
        refine ⟨hflow.log_order, List.pairwise_singleton _ _, fun m hm n hn => ?_⟩
        rw [List.mem_singleton.mp hn, hgen, hfits.current]
        exact hflow.log_bound m hm
      link := fun k hk => { hflow.link k hk with } }

theorem flow_take {rest : List Envelope} (hflow : Flow s) (hlink : s.link = some l)
    (hsender : l.sender = .waiting) (hcommands : s.commands = command :: rest) :
    Flow { s.setLink { l with sender := .writing command } with commands := rest } := by
  have hfits := hflow.link l hlink
  have haccounted := hflow.accounted
  have hroom := hflow.room
  rw [inFlight, hlink, hcommands] at haccounted
  simp only [hsender, Sender.hand, List.append_nil] at haccounted
  rw [hcommands, List.length_cons] at hroom
  exact { hflow with
    accounted := by
      show s.acks.map Prod.snd = _ ++ [command] ++ rest ++ s.reader.hand
      rw [haccounted]
      simp [setLink]
    room := by
      show rest.length ≤ capacity
      omega
    link := by
      rintro k ⟨⟩
      exact { hfits with unbroken := fun _ => hfits.unbroken (by rw [hsender]; simp) } }

/-- The command leaves the sender's hand for the log of what was sent. One that could not be written
ends the sender, so that no other follows it on this connection. -/
theorem flow_write (hflow : Flow s) (hlink : s.link = some l)
    (hsender : l.sender = .writing command) (ok : Bool) :
    Flow { s.setLink { l with sender := if ok then .waiting else .returned } with
      sent := s.sent ++ [⟨l.generation, command, ok⟩] } := by
  have hfits := hflow.link l hlink
  have haccounted := hflow.accounted
  rw [inFlight, hlink] at haccounted
  simp only [hsender, Sender.hand] at haccounted
  have hhand : (if ok then Sender.waiting else Sender.returned).hand = [] := by
    cases ok <;> rfl
  have hunbroken := hfits.unbroken (by rw [hsender]; simp)
  exact { hflow with
    accounted := by
      show s.acks.map Prod.snd =
        (s.sent ++ [(⟨l.generation, command, ok⟩ : Sent)]).map Sent.command ++
        (if ok then Sender.waiting else Sender.returned).hand ++ s.commands ++ s.reader.hand
      rw [haccounted, hhand]
      simp
    sent_bound := by
      intro x hx
      obtain hx | hx := List.mem_append.mp hx
      · exact hflow.sent_bound x hx
      · rw [List.mem_singleton.mp hx]
        exact hfits.current.le
    sent_order := by
      refine List.pairwise_append.mpr
        ⟨hflow.sent_order, List.pairwise_singleton _ _, fun x hx y hy => ?_⟩
      rw [List.mem_singleton.mp hy]
      have hle : x.generation ≤ l.generation := hfits.current ▸ hflow.sent_bound x hx
      refine ⟨hle, fun hlost => lt_of_le_of_ne hle fun heq => ?_⟩
      rw [hunbroken x hx heq] at hlost
      cases hlost
    link := by
      rintro k ⟨⟩
      refine { hfits with unbroken := fun hrun x hx heq => ?_ }
      obtain hx | hx := List.mem_append.mp hx
      · exact hunbroken x hx heq
      · rw [List.mem_singleton.mp hx]
        cases ok with
        | true => rfl
        | false => exact absurd rfl hrun }

theorem flow_close (hflow : Flow s) (hlink : s.link = some l) (hsender : l.sender = .returned) :
    Flow { s with link := none } := by
  have haccounted := hflow.accounted
  rw [inFlight, hlink] at haccounted
  simp only [hsender, Sender.hand] at haccounted
  exact { hflow with
    accounted := haccounted
    link := fun _ hl => nomatch hl }

theorem flow_linkStep {a : LinkAct} (hflow : Flow s) (hlink : s.link = some l)
    (hstep : s.linkStep l a = some t) : Flow t := by
  cases a with
  | receive raw =>
    obtain ⟨-, hstep⟩ := Option.ite_none_right_eq_some.mp hstep
    split at hstep
    · cases hstep
      exact flow_receiver hflow hlink (fun _ _ h => nomatch h)
    split at hstep
    · cases hstep
      exact hflow
    · cases hstep
      refine flow_receiver hflow hlink ?_
      rintro m f ⟨⟩
      rfl
  | record a =>
    simp only [linkStep] at hstep
    split at hstep
    case h_1 message failed hreceiver =>
      obtain ⟨u, happend, rfl⟩ := Option.map_eq_some_iff.mp hstep
      exact flow_upstream_record hflow hlink hreceiver happend
    case h_2 => cases hstep
  | giveUp =>
    simp only [linkStep] at hstep
    split at hstep
    · cases hstep
      exact flow_receiver hflow hlink (fun _ _ h => nomatch h)
    · cases hstep
  | readFails =>
    obtain ⟨-, ⟨⟩⟩ := Option.ite_none_right_eq_some.mp hstep
    exact flow_receiver hflow hlink (fun _ _ h => nomatch h)
  | take =>
    simp only [linkStep] at hstep
    split at hstep
    case h_1 command rest hsender hcommands =>
      cases hstep
      exact flow_take hflow hlink hsender hcommands
    case h_2 => cases hstep
  | write ok =>
    simp only [linkStep] at hstep
    split at hstep
    case h_1 command hsender =>
      cases hstep
      exact flow_write hflow hlink hsender ok
    case h_2 => cases hstep
  | contextDone =>
    obtain ⟨hsender, ⟨⟩⟩ := Option.ite_none_right_eq_some.mp hstep
    exact flow_link hflow hlink rfl (by rw [hsender]; rfl) (fun _ => rfl)
      (hflow.link l hlink).marked
  | close =>
    obtain ⟨⟨-, hsender⟩, ⟨⟩⟩ := Option.ite_none_right_eq_some.mp hstep
    exact flow_close hflow hlink hsender

theorem flow_step {e : Event} (hflow : Flow s) (hstep : s.step e = some t) : Flow t := by
  cases e with
  | receive raw draining written =>
    obtain ⟨hreader, hstep⟩ := Option.ite_none_right_eq_some.mp hstep
    split at hstep
    · cases hstep
      exact flow_say hflow written _
    split at hstep
    · cases hstep
      exact flow_say hflow written _
    · cases hstep
      exact flow_reader hflow hreader rfl rfl
  | record a =>
    simp only [step] at hstep
    split at hstep
    case h_1 message failed hreader =>
      obtain ⟨u, happend, rfl⟩ := Option.map_eq_some_iff.mp hstep
      exact flow_record hflow hreader happend
    case h_2 => cases hstep
  | giveUp =>
    simp only [step] at hstep
    split at hstep
    case h_1 message hreader =>
      cases hstep
      exact flow_reader hflow hreader rfl rfl
    case h_2 => cases hstep
  | acknowledge ok =>
    simp only [step] at hstep
    split at hstep
    case h_1 message id hreader =>
      split at hstep
      · cases hstep
        exact flow_acknowledge hflow hreader
      · cases hstep
        exact flow_reader hflow hreader rfl rfl
    case h_2 => cases hstep
  | push =>
    simp only [step] at hstep
    split at hstep
    case h_1 message hreader =>
      obtain ⟨hroom, ⟨⟩⟩ := Option.ite_none_right_eq_some.mp hstep
      exact flow_push hflow hreader hroom
    case h_2 => cases hstep
  | contextDone =>
    simp only [step] at hstep
    split at hstep
    case h_1 message hreader =>
      cases hstep
      exact flow_reader hflow hreader rfl rfl
    case h_2 => cases hstep
  | readFails =>
    obtain ⟨hreader, ⟨⟩⟩ := Option.ite_none_right_eq_some.mp hstep
    exact flow_reader hflow hreader rfl rfl
  | connect others =>
    obtain ⟨hlink, ⟨⟩⟩ := Option.ite_none_right_eq_some.mp hstep
    exact flow_connect hflow (Option.isNone_iff_eq_none.mp hlink) others
  | upstream a =>
    obtain ⟨l, hlink, hact⟩ := Option.bind_eq_some_iff.mp hstep
    exact flow_linkStep hflow hlink hact

theorem flow_of_run {events : List Event} (hrun : Trace.exec step {} events = some s) : Flow s :=
  Trace.exec_always (I := Flow) flow_step flow_init hrun

/-- The acknowledged commands, in order, are those sent upstream, the one being written, those in
the channel and the one `readClient` has in its hand: none is sent twice, overtaken or unrecorded.
Each connection that breaks loses at most one command, and the transcript has the backend's messages
in the order of their connections. -/
theorem acknowledged_commands_keep_order {events : List Event}
    (hrun : Trace.exec step {} events = some s) :
    s.acks.map Prod.snd = s.sent.map Sent.command ++ s.inFlight ++ s.commands ++ s.reader.hand ∧
      s.acks.Sublist s.clientLog ∧ s.commands.length ≤ capacity ∧ s.sent.Pairwise Precedes ∧
      s.backendLog.Pairwise fun m n => m.generation ≤ n.generation := by
  have hflow := flow_of_run hrun
  exact ⟨hflow.accounted, (List.sublist_append_left _ _).trans hflow.recorded, hflow.room,
    hflow.sent_order, hflow.log_order⟩

/-- Two commands, the first recorded twice and lost to a connection that broke, the second sent by
the next one. -/
def twoConnections : List Event :=
  let command (id : String) : Option EnvelopeText :=
    some { type := some "command".toList, messageID := some id.toList, payload := some ['1'] }
  [.receive (command "a") false true, .record (.unanswered (toLex (5, 0))),
    .record (.ok (toLex (5, 1))), .acknowledge true, .push, .connect 0, .upstream .take,
    .receive (command "b") false true, .record (.ok (toLex (6, 0))), .acknowledge true,
    .upstream (.write false), .upstream .readFails, .upstream .close, .push, .connect 3,
    .upstream .take, .upstream (.write true),
    .upstream (.receive (some { type := some "ack".toList, messageID := some ['b'] })),
    .upstream (.record (.ok (toLex (7, 0))))]

theorem twoConnections_keep_order :
    ∃ s : Relay, Trace.exec step {} twoConnections = some s ∧ s.clientLog.length = 3 ∧
      s.sent.map (fun x => (x.generation, x.ok)) = [(1, false), (5, true)] ∧
      s.acks.map Prod.snd = s.sent.map Sent.command ∧ s.sent.Pairwise Precedes := by
  obtain ⟨s, hrun, hlog, hsent, hflight, hcommands, hhand⟩ : ∃ s : Relay,
      Trace.exec step {} twoConnections = some s ∧ s.clientLog.length = 3 ∧
      s.sent.map (fun x => (x.generation, x.ok)) = [(1, false), (5, true)] ∧
      s.inFlight = [] ∧ s.commands = [] ∧ s.reader.hand = [] := by decide +kernel
  obtain ⟨hacks, -, -, horder, -⟩ := acknowledged_commands_keep_order hrun
  rw [hflight, hcommands, hhand] at hacks
  exact ⟨s, hrun, hlog, hsent, by simpa using hacks, horder⟩

end Relay

end Aquifer.Websocket
