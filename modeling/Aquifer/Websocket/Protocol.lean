import Aquifer.Lib.Binary64
import Aquifer.Lib.Json
import Aquifer.Lib.Texts
import Aquifer.Websocket.Transcript

/-! A backend message on its way to a client: decoded from JSON, stored in the session's transcript
as a flat map, decoded again and written as JSON. -/
namespace Aquifer.Websocket

/-- `Envelope`. A payload is the JSON text of one, or empty. -/
structure Envelope where
  type : String
  state : String := ""
  messageID : String := ""
  causedBy : String := ""
  streamID : String := ""
  payload : List Char := []
  reason : String := ""
  position : Int := 0
  generation : Int := 0
  retryAfterMS : Int := 0
  maxConnections : Option Int := none
  connectRPS : Option Binary64.Finite := none
deriving DecidableEq

/-- An envelope as a JSON object: the texts between the quotes of its strings, the text of its
payload, and its numbers. Fields of the object that are not there are `none`. -/
structure EnvelopeText where
  type : Option (List Char) := none
  state : Option (List Char) := none
  messageID : Option (List Char) := none
  causedBy : Option (List Char) := none
  streamID : Option (List Char) := none
  payload : Option (List Char) := none
  reason : Option (List Char) := none
  position : Option Int := none
  generation : Option Int := none
  retryAfterMS : Option Int := none
  maxConnections : Option Int := none
  connectRPS : Option Binary64.Finite := none
deriving DecidableEq

/-! ### JSON -/

open JsonText (quoteText omitEmpty readText readText_quoteText readText_omitEmpty)

/-- `omitempty` of a number. -/
def omitZero (n : Int) : Option Int := if n = 0 then none else some n

/-- A raw message is kept as it is, if it is JSON. -/
def readRaw : Option (List Char) → Option (List Char)
  | none => some []
  | some text => if Json.valid text then some text else none

/-- A raw message is written in its compact form. One that is no JSON is an error. -/
def writeRaw (payload : List Char) : Option (Option (List Char)) :=
  if payload = [] then some none
  else if Json.valid payload then some (some (Json.compact payload))
  else none

/-- `WriteJSON`. -/
def Envelope.marshal (e : Envelope) : Option EnvelopeText := do
  let payload ← writeRaw e.payload
  return {
    type := some (quoteText e.type)
    state := omitEmpty e.state
    messageID := omitEmpty e.messageID
    causedBy := omitEmpty e.causedBy
    streamID := omitEmpty e.streamID
    payload
    reason := omitEmpty e.reason
    position := omitZero e.position
    generation := omitZero e.generation
    retryAfterMS := omitZero e.retryAfterMS
    maxConnections := e.maxConnections
    connectRPS := e.connectRPS }

/-- `json.Unmarshal`. -/
def EnvelopeText.unmarshal (t : EnvelopeText) : Option Envelope := do
  let type ← readText t.type
  let state ← readText t.state
  let messageID ← readText t.messageID
  let causedBy ← readText t.causedBy
  let streamID ← readText t.streamID
  let payload ← readRaw t.payload
  let reason ← readText t.reason
  return {
    type, state, messageID, causedBy, streamID, payload, reason
    position := t.position.getD 0
    generation := t.generation.getD 0
    retryAfterMS := t.retryAfterMS.getD 0
    maxConnections := t.maxConnections
    connectRPS := t.connectRPS }

/-! ### What a backend may send -/

inductive ProtocolError
  | invalidJSON
  | ackMessageID
  | eventMessageID
  | eventPayload
  | capacityUnset
  | maxConnections
  | connectRPS
  | unsupported (type : String)
deriving DecidableEq

/-- The text of an error; `quoted` is the verb `%q`. -/
def ProtocolError.text (quoted : String → String) (e : ProtocolError) : String :=
  "invalid aqueduct websocket message: " ++
    match e with
    | .invalidJSON => "invalid json"
    | .ackMessageID => "ack message_id is required"
    | .eventMessageID => "event message_id is required"
    | .eventPayload => "event payload is required"
    | .capacityUnset => "capacity message must set max_connections or connect_rps"
    | .maxConnections => "max_connections must be positive"
    | .connectRPS => "connect_rps must be positive"
    | .unsupported type => "unsupported backend message type " ++ quoted type

/-- `decodeBackendWebSocketMessage`. What is no JSON object, or has a field of another type, is
`none`. -/
def decodeBackendWebSocketMessage (raw : Option EnvelopeText) : Except ProtocolError Envelope :=
  match raw.bind EnvelopeText.unmarshal with
  | none => .error .invalidJSON
  | some msg =>
    if msg.type = "ack" then
      if msg.messageID = "" then .error .ackMessageID else .ok msg
    else if msg.type = "event" then
      if msg.messageID = "" then .error .eventMessageID
      else if msg.payload = [] then .error .eventPayload
      else .ok msg
    else if msg.type = "aqueduct.capacity" then
      if msg.maxConnections = none ∧ msg.connectRPS = none then .error .capacityUnset
      else if msg.maxConnections.any (· ≤ 0) then .error .maxConnections
      else if msg.connectRPS.any (·.val ≤ 0) then .error .connectRPS
      else .ok msg
    else .error (.unsupported msg.type)

/-! ### The transcript -/

inductive Direction
  | client
  | backend
deriving DecidableEq

def Direction.text : Direction → String
  | .client => "client"
  | .backend => "backend"

def StreamID.text (id : StreamID) : String := toString (ofLex id).1 ++ "-" ++ toString (ofLex id).2

/-- A message as `relayUpstream` or the client's session hands it to `Append`: its payload is JSON
or empty, and its numbers are of 64 bits. -/
structure Recorded where
  id : StreamID
  direction : Direction
  message : Envelope
  recordedAt : Int
  payload_valid : message.payload = [] ∨ Json.valid message.payload = true
  generation_fits : Texts.isInt64 message.generation = true
  recordedAt_fits : Texts.isInt64 recordedAt = true

/-- The fields that `Append` adds to the stream. -/
def Recorded.values (r : Recorded) : List (String × String) :=
  [("direction", r.direction.text),
    ("type", r.message.type),
    ("message_id", r.message.messageID),
    ("caused_by", r.message.causedBy),
    ("payload", String.ofList r.message.payload),
    ("generation", String.ofList (Texts.formatInt r.message.generation)),
    ("recorded_at", String.ofList (Texts.formatInt r.recordedAt))]

structure StreamEvent where
  streamID : String
  direction : String
  recordedAt : Int
  envelope : Envelope
deriving DecidableEq

inductive TranscriptError
  | generation
  | recordedAt
  | payload
deriving DecidableEq

def defaultString (s fallback : String) : String := if s = "" then fallback else s

def decodeWebSocketStreamEvent (id : String) (values : List (String × String)) :
    Except TranscriptError StreamEvent :=
  let value name := (values.lookup name).getD ""
  match Texts.parseInt (defaultString (value "generation") "0").toList,
    Texts.parseInt (defaultString (value "recorded_at") "0").toList with
  | none, _ => .error .generation
  | _, none => .error .recordedAt
  | some generation, some recordedAt =>
    let event payload : StreamEvent :=
      { streamID := id
        direction := value "direction"
        recordedAt
        envelope :=
          { type := value "type"
            messageID := value "message_id"
            causedBy := value "caused_by"
            generation
            payload } }
    if value "payload" = "" then .ok (event [])
    else if Json.valid (value "payload").toList then .ok (event (value "payload").toList)
    else .error .payload

/-- `ReadAfter` on the entries that are left of a transcript: the first ones after the cursor, all
decoded or none. -/
def readAfter (stream : List Recorded) (after : StreamID) (count : Nat) :
    Except TranscriptError (List StreamEvent) :=
  ((stream.filter fun r => after < r.id).take count).mapM fun r =>
    decodeWebSocketStreamEvent r.id.text r.values

/-- `deliverEvents`: what is written to the client, and whether all of it could be. -/
def deliverEvents : List StreamEvent → List EnvelopeText × Bool
  | [] => ([], true)
  | event :: events =>
    if event.direction ≠ "backend" then deliverEvents events
    else
      match { event.envelope with streamID := event.streamID }.marshal with
      | none => ([], false)
      | some text => (text :: (deliverEvents events).1, (deliverEvents events).2)

/-! ### What a client receives -/

/-- What the transcript keeps of a message. -/
def Recorded.envelope (r : Recorded) : Envelope :=
  { type := r.message.type
    messageID := r.message.messageID
    causedBy := r.message.causedBy
    payload := r.message.payload
    generation := r.message.generation }

def Recorded.event (r : Recorded) : StreamEvent where
  streamID := r.id.text
  direction := r.direction.text
  recordedAt := r.recordedAt
  envelope := r.envelope

/-- The message as the client decodes it. -/
def Recorded.received (r : Recorded) : Envelope :=
  { r.envelope with streamID := r.id.text, payload := Json.compact r.message.payload }

variable {e : Envelope} {n : Int}

theorem getD_omitZero (n : Int) : (omitZero n).getD 0 = n := by
  unfold omitZero
  split
  · next h => exact h.symm
  · rfl

theorem readRaw_writeRaw {payload : List Char}
    (h : payload = [] ∨ Json.valid payload = true) :
    ∃ t, writeRaw payload = some t ∧ readRaw t = some (Json.compact payload) := by
  unfold writeRaw
  rcases h with rfl | hvalid
  · exact ⟨none, rfl, rfl⟩
  · by_cases hempty : payload = []
    · subst hempty
      cases hvalid
    · refine ⟨_, by rw [if_neg hempty, if_pos hvalid], ?_⟩
      rw [readRaw, if_pos (Json.valid_compact hvalid)]

/-- What is written is read back, up to the form of the payload. -/
theorem unmarshal_marshal (h : e.payload = [] ∨ Json.valid e.payload = true) :
    ∃ t, e.marshal = some t ∧
      t.unmarshal = some { e with payload := Json.compact e.payload } := by
  obtain ⟨t, hwrite, hread⟩ := readRaw_writeRaw h
  refine ⟨_, by rw [Envelope.marshal, hwrite]; rfl, ?_⟩
  simp [EnvelopeText.unmarshal, readText_quoteText, readText_omitEmpty, getD_omitZero, hread]

theorem formatInt_ne_nil (n : Int) : Texts.formatInt n ≠ [] := by
  unfold Texts.formatInt
  split
  · simp
  · exact Nat.toDigits_ne_nil

theorem parseInt_stored (h : Texts.isInt64 n = true) :
    Texts.parseInt (defaultString (String.ofList (Texts.formatInt n)) "0").toList = some n := by
  have hne : String.ofList (Texts.formatInt n) ≠ "" := by
    intro heq
    exact formatInt_ne_nil n (by simpa using congrArg String.toList heq)
  rw [defaultString, if_neg hne, String.toList_ofList]
  exact Texts.parseInt_formatInt h

theorem decode_values (r : Recorded) :
    decodeWebSocketStreamEvent r.id.text r.values = .ok r.event := by
  have hgeneration : r.values.lookup "generation" =
      some (String.ofList (Texts.formatInt r.message.generation)) := rfl
  have hrecordedAt : r.values.lookup "recorded_at" =
      some (String.ofList (Texts.formatInt r.recordedAt)) := rfl
  have hpayload : r.values.lookup "payload" = some (String.ofList r.message.payload) := rfl
  simp only [decodeWebSocketStreamEvent, hgeneration, hrecordedAt, hpayload, Option.getD_some,
    parseInt_stored r.generation_fits, parseInt_stored r.recordedAt_fits, String.toList_ofList]
  by_cases hempty : r.message.payload = []
  · rw [if_pos (congrArg String.ofList hempty), Recorded.event, Recorded.envelope, hempty]
    rfl
  · have hne : String.ofList r.message.payload ≠ "" := by
      intro heq
      exact hempty (by simpa using congrArg String.toList heq)
    rw [if_neg hne, if_pos (r.payload_valid.resolve_left hempty)]
    rfl

theorem readAfter_eq (stream : List Recorded) (after : StreamID) (count : Nat) :
    readAfter stream after count =
      .ok (((stream.filter fun r => after < r.id).take count).map Recorded.event) := by
  unfold readAfter
  generalize (stream.filter fun r => after < r.id).take count = rs
  induction rs with
  | nil => rfl
  | cons r rs ih =>
    rw [List.mapM_cons, decode_values, ih]
    rfl

/-- All of what is read is written, each message so that the client decodes it as received. -/
theorem deliverEvents_eq (rs : List Recorded) :
    ∃ texts, deliverEvents (rs.map Recorded.event) = (texts, true) ∧
      texts.map EnvelopeText.unmarshal =
        (rs.filter fun r => r.direction = .backend).map fun r => some r.received := by
  induction rs with
  | nil => exact ⟨[], rfl, rfl⟩
  | cons r rs ih =>
    obtain ⟨texts, hdeliver, hread⟩ := ih
    cases hdirection : r.direction with
    | client =>
      have hskip : r.event.direction ≠ "backend" := by
        change r.direction.text ≠ "backend"
        rw [hdirection]
        decide
      refine ⟨texts, ?_, ?_⟩
      · rw [List.map_cons, deliverEvents, if_pos hskip, hdeliver]
      · simpa [hdirection] using hread
    | backend =>
      have hwrite : ¬ r.event.direction ≠ "backend" := by
        change ¬ r.direction.text ≠ "backend"
        rw [hdirection]
        decide
      obtain ⟨t, hmarshal, hunmarshal⟩ :=
        unmarshal_marshal (e := { r.event.envelope with streamID := r.event.streamID })
          r.payload_valid
      refine ⟨t :: texts, ?_, ?_⟩
      · rw [List.map_cons, deliverEvents, if_neg hwrite, hmarshal, hdeliver]
      · simp only [List.map_cons, hunmarshal, hread, hdirection, decide_true,
          List.filter_cons_of_pos]
        rfl

/-- Two texts are the same JSON if they have the same tokens. -/
def SameJSON (p p' : List Char) : Prop := Json.tokens p = Json.tokens p'

/-- Two messages agree in every field of the protocol; the stream id and the generation are
Aquifer's. -/
structure Envelope.Same (e e' : Envelope) : Prop where
  type : e.type = e'.type
  state : e.state = e'.state
  messageID : e.messageID = e'.messageID
  causedBy : e.causedBy = e'.causedBy
  payload : SameJSON e.payload e'.payload
  reason : e.reason = e'.reason
  position : e.position = e'.position
  retryAfterMS : e.retryAfterMS = e'.retryAfterMS
  maxConnections : e.maxConnections = e'.maxConnections
  connectRPS : e.connectRPS = e'.connectRPS

/-- The message uses none of the fields that the transcript has no place for. -/
def Envelope.Plain (e : Envelope) : Prop :=
  e.state = "" ∧ e.reason = "" ∧ e.position = 0 ∧ e.retryAfterMS = 0 ∧ e.maxConnections = none ∧
    e.connectRPS = none

theorem unmarshal_payload {t : EnvelopeText} (h : t.unmarshal = some e) :
    e.payload = [] ∨ Json.valid e.payload = true := by
  have hread : ∀ {p}, readRaw t.payload = some p → p = [] ∨ Json.valid p = true := by
    intro p hp
    unfold readRaw at hp
    split at hp
    · cases hp
      exact .inl rfl
    · obtain ⟨hvalid, ⟨⟩⟩ := Option.ite_none_right_eq_some.mp hp
      exact .inr hvalid
  simp only [EnvelopeText.unmarshal, Option.bind_eq_bind, Option.bind_eq_some_iff] at h
  obtain ⟨_, _, _, _, _, _, _, _, _, _, p, hp, _, _, heq⟩ := h
  cases heq
  exact hread hp

theorem decode_ok {raw : Option EnvelopeText} {msg : Envelope}
    (h : decodeBackendWebSocketMessage raw = .ok msg) :
    ∃ t, raw = some t ∧ t.unmarshal = some msg := by
  unfold decodeBackendWebSocketMessage at h
  split at h
  · cases h
  · next m hm =>
    obtain ⟨t, rfl, ht⟩ := Option.bind_eq_some_iff.mp hm
    refine ⟨t, rfl, ht.trans (congrArg some ?_)⟩
    split_ifs at h <;> cases h <;> rfl

theorem decode_payload {raw : Option EnvelopeText} {msg : Envelope}
    (h : decodeBackendWebSocketMessage raw = .ok msg) :
    msg.payload = [] ∨ Json.valid msg.payload = true := by
  obtain ⟨t, -, ht⟩ := decode_ok h
  exact unmarshal_payload ht

theorem sameJSON_compact {p : List Char} (h : p = [] ∨ Json.valid p = true) :
    SameJSON (Json.compact p) p := by
  rcases h with rfl | hvalid
  · rfl
  · exact Json.tokens_compact hvalid

/-- What `relayUpstream` records of a message that is accepted. -/
def relayed {raw : Option EnvelopeText} {msg : Envelope}
    (hdecode : decodeBackendWebSocketMessage raw = .ok msg) (id : StreamID)
    (generation recordedAt : Int) (hgeneration : Texts.isInt64 generation = true)
    (hrecordedAt : Texts.isInt64 recordedAt = true) : Recorded where
  id
  direction := .backend
  message := { msg with generation }
  recordedAt
  payload_valid := by
    have hvalid := decode_payload hdecode
    exact hvalid
  generation_fits := hgeneration
  recordedAt_fits := hrecordedAt

/-- What is received of a message agrees with it in the fields that the transcript keeps, and in all
fields of the protocol exactly if it uses no other. -/
theorem received_same_iff {raw : Option EnvelopeText} {msg : Envelope}
    (hdecode : decodeBackendWebSocketMessage raw = .ok msg) {id : StreamID}
    {generation recordedAt : Int} (hgeneration : Texts.isInt64 generation = true)
    (hrecordedAt : Texts.isInt64 recordedAt = true) (e : Envelope)
    (he : e = (relayed hdecode id generation recordedAt hgeneration hrecordedAt).received) :
    SameJSON e.payload msg.payload ∧ (e.Same msg ↔ msg.Plain) := by
  subst he
  have hpayload : SameJSON (Json.compact msg.payload) msg.payload :=
    sameJSON_compact (relayed hdecode id generation recordedAt hgeneration
      hrecordedAt).payload_valid
  refine ⟨hpayload, fun h => ?_, fun h => ?_⟩
  · exact ⟨h.state.symm, h.reason.symm, h.position.symm, h.retryAfterMS.symm,
      h.maxConnections.symm, h.connectRPS.symm⟩
  · obtain ⟨hstate, hreason, hposition, hretry, hmax, hrps⟩ := h
    exact ⟨rfl, hstate.symm, rfl, rfl, hpayload, hreason.symm, hposition.symm, hretry.symm,
      hmax.symm, hrps.symm⟩

/-- A backend message that is accepted and recorded is written to every client that reads its entry,
with the entry's id and the generation it was recorded with. The client decodes the type, the ids
and the payload that the backend sent, and the whole message exactly if it has no state, reason,
position, delay or capacity. -/
theorem transcript_delivers_message (raw : Option EnvelopeText) (msg : Envelope)
    (hdecode : decodeBackendWebSocketMessage raw = .ok msg) (id : StreamID)
    (generation recordedAt : Int) (hgeneration : Texts.isInt64 generation = true)
    (hrecordedAt : Texts.isInt64 recordedAt = true) (stream : List Recorded) (after : StreamID)
    (count : Nat) (hread : relayed hdecode id generation recordedAt hgeneration hrecordedAt ∈
      (stream.filter fun r => after < r.id).take count) :
    ∃ events texts, readAfter stream after count = .ok events ∧
      deliverEvents events = (texts, true) ∧
      ∃ text ∈ texts, ∃ e, text.unmarshal = some e ∧ e.streamID = id.text ∧
        e.generation = generation ∧ e.type = msg.type ∧ e.messageID = msg.messageID ∧
        e.causedBy = msg.causedBy ∧ SameJSON e.payload msg.payload ∧ (e.Same msg ↔ msg.Plain) := by
  obtain ⟨texts, hdeliver, htexts⟩ :=
    deliverEvents_eq ((stream.filter fun r => after < r.id).take count)
  refine ⟨_, texts, readAfter_eq stream after count, hdeliver, ?_⟩
  have hmem : some (relayed hdecode id generation recordedAt hgeneration hrecordedAt).received ∈
      texts.map EnvelopeText.unmarshal := by
    rw [htexts]
    exact List.mem_map_of_mem (List.mem_filter.mpr ⟨hread, decide_eq_true rfl⟩)
  obtain ⟨text, htext, hunmarshal⟩ := List.mem_map.mp hmem
  obtain ⟨hpayload, hsame⟩ := received_same_iff hdecode hgeneration hrecordedAt _ rfl
  exact ⟨text, htext, _, hunmarshal, rfl, rfl, rfl, rfl, rfl, hpayload, hsame⟩

/-- An event whose payload has a space and a character that is escaped for HTML. -/
def plainEvent : EnvelopeText where
  type := some "event".toList
  messageID := some "m".toList
  causedBy := some "c".toList
  payload := some "[1, \"<b>\"]".toList

def plainEventMessage : Envelope where
  type := "event"
  messageID := "m"
  causedBy := "c"
  payload := "[1, \"<b>\"]".toList

theorem decode_plainEvent :
    decodeBackendWebSocketMessage (some plainEvent) = .ok plainEventMessage := by
  decide +kernel

/-- The client decodes what was sent. -/
theorem plain_event_delivered :
    ∃ texts, deliverEvents [(relayed decode_plainEvent (toLex (5, 0)) 2 7 rfl rfl).event] =
        (texts, true) ∧
      ∃ text ∈ texts, ∃ e, text.unmarshal = some e ∧ e.generation = 2 ∧
        e.Same plainEventMessage := by
  have hafter : StreamID.zero < toLex (5, 0) := by decide
  obtain ⟨events, texts, hevents, hdeliver, text, htext, e, he, -, hgeneration, -, -,
    -, -, hsame⟩ :=
    transcript_delivers_message (some plainEvent) plainEventMessage decode_plainEvent (toLex (5, 0))
      2 7 rfl rfl [relayed decode_plainEvent (toLex (5, 0)) 2 7 rfl rfl] StreamID.zero 10
      (by simp [relayed, hafter])
  have hread : events = [(relayed decode_plainEvent (toLex (5, 0)) 2 7 rfl rfl).event] := by
    rw [readAfter_eq] at hevents
    simpa [relayed, hafter] using (Except.ok.inj hevents).symm
  subst hread
  exact ⟨texts, hdeliver, text, htext, e, he, hgeneration,
    hsame.mpr ⟨rfl, rfl, rfl, rfl, rfl, rfl⟩⟩

/-- An ack that says why a command was turned away and when to try again. -/
def rejectedAck : EnvelopeText where
  type := some "ack".toList
  messageID := some "m".toList
  state := some "rejected".toList
  reason := some "busy".toList
  retryAfterMS := some 500

def rejectedAckMessage : Envelope where
  type := "ack"
  messageID := "m"
  state := "rejected"
  reason := "busy"
  retryAfterMS := 500

theorem decode_rejectedAck :
    decodeBackendWebSocketMessage (some rejectedAck) = .ok rejectedAckMessage := by
  decide +kernel

/-- The client receives the bare ack. -/
theorem rejected_ack_loses_reason :
    ∃ text, deliverEvents [(relayed decode_rejectedAck (toLex (5, 0)) 2 7 rfl rfl).event] =
        ([text], true) ∧
      text.unmarshal =
        some { type := "ack", messageID := "m", streamID := "5-0", generation := 2 } ∧
      ¬ Envelope.Same { type := "ack", messageID := "m", streamID := "5-0", generation := 2 }
        rejectedAckMessage := by
  refine ⟨_, rfl, by decide +kernel, fun h => ?_⟩
  exact absurd h.state (by decide)

end Aquifer.Websocket
