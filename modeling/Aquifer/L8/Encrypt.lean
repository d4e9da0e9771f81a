import Aquifer.L8.Trust
import Aquifer.Lib.Ideal

/-! Deliveries to trusted receivers: encryption to the receiver's key, the signature over the bytes
that are sent, and how the receiver opens them. A string that comes from outside is its bytes. -/
namespace Aquifer.L8

def encryptionAlgorithm : String := "x25519-hkdf-sha256-aes256gcm"

def encryptedContentType : String := "application/l8-encrypted"

def encryptionInfo : String := "l8/0.2 payload"

/-- `gcm.NonceSize()`. -/
def nonceSize : Nat := 12

def bytesOf (text : String) : Bytes := Utf8.encode text.toList

def encodeToString (bs : Bytes) : Bytes := Utf8.encode (Base64.encode bs)

def decodeString (text : Bytes) : Option Bytes := Base64.decode (Utf8.latin text)

/-- The verb `%d`. -/
def decimal (n : Int) : Bytes := Utf8.encode (Texts.formatInt n)

/-- The separator of what is authenticated and of what is signed. -/
def dot : UInt8 := 46

abbrev Headers := Assoc String Bytes

/-- The algorithms. A derived key is of the size that AES takes, so that `newGCM` does not fail. -/
structure Suite (π κ ς : Type) where
  x25519 : Ideal.Agreement π publicKeySize
  hkdf : Ideal.Kdf κ
  aes256gcm : Ideal.Aead κ
  ed25519 : Ideal.Signature ς
  sha256 : Bytes → Bytes

/-- What one delivery draws: its id, the time, and what the source of randomness gives. -/
structure Draws (π : Type) where
  deliveryID : Bytes
  ts : Int
  isInt64_ts : Texts.isInt64 ts = true
  ephemeral : Except String π
  nonce : Except String { nonce : Bytes // nonce.length = nonceSize }

inductive OpenError
  | ephemeralEncoding
  | ephemeralSize
  | nonceEncoding
  | agreement (err : String)
  | nonceSize (text : String)
  | authentication
deriving DecidableEq

def payloadAAD (deliveryID : Bytes) (ts : Int) : Bytes := deliveryID ++ dot :: decimal ts

def encryptionHeaders (ephemeral nonce : Bytes) : Headers :=
  (((∅ : Headers).insert "X-L8-Encryption" (bytesOf encryptionAlgorithm)).insert
    "X-L8-Ephemeral-Key" (encodeToString ephemeral)).insert
    "X-L8-Nonce" (encodeToString nonce)

/-- With the type of what was sealed, and that of what is sent. -/
def contentHeaders (encHeaders : Headers) (contentType : Bytes) : Headers :=
  (encHeaders.insert "X-L8-Content-Type" contentType).insert
    "Content-Type" (bytesOf encryptedContentType)

namespace Suite

variable {π κ ς ρ : Type}

section Model

variable (c : Suite π κ ς)

def derivePayloadKey (priv : π) (peer ephemeralPub receiverPub : Bytes) : Except String κ := do
  let shared ← c.x25519.ecdh priv peer
  let salt := ephemeralPub ++ receiverPub
  return c.hkdf.derive shared salt (bytesOf encryptionInfo)

def sealPayload (receiver plaintext : Bytes) (d : Draws π) : Except String (Bytes × Headers) := do
  let ephemeral ← d.ephemeral
  let ephemeralPub := c.x25519.publicKey ephemeral
  let key ← c.derivePayloadKey ephemeral receiver ephemeralPub receiver
  let nonce ← d.nonce
  let ciphertext := c.aes256gcm.encrypt key nonce.1 plaintext (payloadAAD d.deliveryID d.ts)
  return (ciphertext, encryptionHeaders ephemeralPub nonce.1)

def openPayload (receiver : π) (ciphertext ephemeralB64 nonceB64 deliveryID : Bytes) (ts : Int) :
    Except OpenError Bytes :=
  match decodeString ephemeralB64 with
  | none => .error .ephemeralEncoding
  | some ephemeral =>
    if ephemeral.length ≠ publicKeySize then .error .ephemeralSize
    else
      match decodeString nonceB64 with
      | none => .error .nonceEncoding
      | some nonce =>
        match c.derivePayloadKey receiver ephemeral ephemeral (c.x25519.publicKey receiver) with
        | .error err => .error (.agreement err)
        | .ok key =>
          if nonce.length ≠ nonceSize then .error (.nonceSize "nonce must be 12 bytes")
          else
            match c.aes256gcm.decrypt key nonce ciphertext (payloadAAD deliveryID ts) with
            | none => .error .authentication
            | some plaintext => .ok plaintext

/-- What is signed, with the timestamp as it is written. -/
def signedText (body deliveryID timestamp : Bytes) : Bytes :=
  deliveryID ++ dot :: (timestamp ++ dot :: encodeToString (c.sha256 body))

def signHeaders (privateKey : ς) (body deliveryID : Bytes) (ts : Int) : Headers :=
  let msg := c.signedText body deliveryID (decimal ts)
  let sig := c.ed25519.sign privateKey msg
  ((((∅ : Headers).insert "X-L8-Delivery-Id" deliveryID).insert
    "X-L8-Timestamp" (decimal ts)).insert
    "X-L8-Key-Id" (encodeToString ((c.ed25519.publicKey privateKey).take 8))).insert
    "X-L8-Signature" (encodeToString sig)

/-- A receiver that is not trusted gets the body as it is and no headers. Where two headers have one
name, the later one is kept. -/
def sealDelivery (privateKey : ς) (s : Trusts ρ) (rawURL : String) (body contentType : Bytes)
    (d : Draws π) : Except String (Bytes × Option Headers) :=
  let domain := extractDomain rawURL
  if domain = "" then .ok (body, none)
  else
    match s.trusts.lookup domain with
    | none => .ok (body, none)
    | some peer =>
      let signed (body : Bytes) (headers : Headers) :=
        (body, some (c.signHeaders privateKey body d.deliveryID d.ts ∪ headers))
      match peer.encryption with
      | none => .ok (signed body ∅)
      | some receiver =>
        match c.sealPayload receiver body d with
        | .error err => .error ("l8 encrypt for " ++ domain ++ ": " ++ err)
        | .ok (ciphertext, encHeaders) =>
          .ok (signed ciphertext (contentHeaders encHeaders contentType))

/-- How a receiver checks the signature of what it got. -/
def verifySignature (sender : Bytes) (headers : Headers) (body : Bytes) : Bool :=
  let get (name : String) : Bytes := (headers.lookup name).getD []
  let msg := c.signedText body (get "X-L8-Delivery-Id") (get "X-L8-Timestamp")
  let sig := (decodeString (get "X-L8-Signature")).getD []
  c.ed25519.verify sender msg sig

end Model

end Suite

/-- What a receiver needs of the headers to open a delivery. -/
structure Envelope where
  ephemeralB64 : Bytes
  nonceB64 : Bytes
  deliveryID : Bytes
  ts : Int

/-- `OpenPayload` with what the headers say. -/
def Suite.openEnvelope {π κ ς : Type} (c : Suite π κ ς) (receiver : π) (ciphertext : Bytes)
    (e : Envelope) : Except OpenError Bytes :=
  c.openPayload receiver ciphertext e.ephemeralB64 e.nonceB64 e.deliveryID e.ts

def envelope (headers : Headers) : Option Envelope := do
  let ephemeralB64 ← headers.lookup "X-L8-Ephemeral-Key"
  let nonceB64 ← headers.lookup "X-L8-Nonce"
  let deliveryID ← headers.lookup "X-L8-Delivery-Id"
  let timestamp ← headers.lookup "X-L8-Timestamp"
  let ts ← Texts.parseInt (Utf8.latin timestamp)
  return { ephemeralB64, nonceB64, deliveryID, ts }

/-- Of the ephemeral key and the nonce it is the bytes that count. -/
def Envelope.Same (e e' : Envelope) : Prop :=
  e.deliveryID = e'.deliveryID ∧ e.ts = e'.ts ∧
  decodeString e.ephemeralB64 = decodeString e'.ephemeralB64 ∧
  decodeString e.nonceB64 = decodeString e'.nonceB64

theorem Envelope.Same.refl (e : Envelope) : e.Same e := ⟨rfl, rfl, rfl, rfl⟩

/-! ### Texts -/

section Texts

variable {deliveryID deliveryID' : Bytes} {ts ts' : Int}

@[simp] theorem decodeString_encodeToString (bs : Bytes) :
    decodeString (encodeToString bs) = some bs := by
  rw [decodeString, encodeToString, Utf8.latin_encode Base64.encode_ascii, Base64.decode_encode]

theorem formatInt_ascii : ∀ c ∈ Texts.formatInt ts, c.toNat < 128 := by
  intro c hc
  rcases Texts.isDigit_of_mem_formatInt hc with rfl | hdigit
  · decide
  · exact Nat.lt_of_le_of_lt (Char.isDigit_iff_toNat.mp hdigit).2 (by decide)

theorem latin_decimal (ts : Int) : Utf8.latin (decimal ts) = Texts.formatInt ts :=
  Utf8.latin_encode formatInt_ascii

theorem decimal_injective : Function.Injective decimal := by
  intro ts ts' h
  have hlatin := congrArg Utf8.latin h
  rw [latin_decimal, latin_decimal] at hlatin
  exact Texts.formatInt_injective hlatin

theorem dot_notMem_decimal : dot ∉ decimal ts := by
  intro hdot
  have hchar : '.' ∈ Texts.formatInt ts := by
    rw [← latin_decimal]
    exact List.mem_map.mpr ⟨dot, hdot, by decide⟩
  rcases Texts.isDigit_of_mem_formatInt hchar with h | h
  · cases h
  · cases h

/-- The id may have dots itself: the timestamp is what follows the last one. -/
theorem payloadAAD_inj (h : payloadAAD deliveryID ts = payloadAAD deliveryID' ts') :
    deliveryID = deliveryID' ∧ ts = ts' := by
  obtain ⟨hid, hts⟩ := Texts.split_last_inj dot_notMem_decimal dot_notMem_decimal h
  exact ⟨hid, decimal_injective hts⟩

end Texts

/-! ### Opening what was sealed -/

namespace Suite

variable {π κ ς ρ : Type} {c : Suite π κ ς} {d : Draws π} {receiver : π} {receiverPub : Bytes}
  {body sent : Bytes} {headers : Headers}

theorem sealPayload_ok_iff : c.sealPayload receiverPub body d = .ok (sent, headers) ↔
    ∃ ephemeral shared nonce, d.ephemeral = .ok ephemeral ∧
      c.x25519.ecdh ephemeral receiverPub = .ok shared ∧ d.nonce = .ok nonce ∧
      sent = c.aes256gcm.encrypt
        (c.hkdf.derive shared (c.x25519.publicKey ephemeral ++ receiverPub)
        (bytesOf encryptionInfo))
        nonce.1 body (payloadAAD d.deliveryID d.ts) ∧
      headers = encryptionHeaders (c.x25519.publicKey ephemeral) nonce.1 := by
  unfold sealPayload derivePayloadKey
  cases hephemeral : d.ephemeral with
  | error err => simp [bind, Except.bind]
  | ok ephemeral =>
    cases hshared : c.x25519.ecdh ephemeral receiverPub with
    | error err => simp [bind, Except.bind, hshared]
    | ok shared =>
      cases hnonce : d.nonce with
      | error err => simp [bind, Except.bind, pure, Except.pure, hshared]
      | ok nonce => simp [bind, Except.bind, pure, Except.pure, hshared, eq_comm]

theorem openPayload_ok_iff {ephemeralB64 nonceB64 deliveryID plaintext : Bytes} {ts : Int} :
    c.openPayload receiver sent ephemeralB64 nonceB64 deliveryID ts = .ok plaintext ↔
    ∃ ephemeral nonce shared, decodeString ephemeralB64 = some ephemeral ∧
      ephemeral.length = publicKeySize ∧ decodeString nonceB64 = some nonce ∧
      c.x25519.ecdh receiver ephemeral = .ok shared ∧ nonce.length = nonceSize ∧
      c.aes256gcm.decrypt
        (c.hkdf.derive shared (ephemeral ++ c.x25519.publicKey receiver) (bytesOf encryptionInfo))
        nonce sent (payloadAAD deliveryID ts) = some plaintext := by
  unfold openPayload derivePayloadKey
  cases hephemeral : decodeString ephemeralB64 with
  | none => simp
  | some ephemeral =>
    by_cases hsize : ephemeral.length = publicKeySize
    · cases hnonce : decodeString nonceB64 with
      | none => simp [hsize]
      | some nonce =>
        cases hshared : c.x25519.ecdh receiver ephemeral with
        | error err => simp [bind, Except.bind, hsize, hshared]
        | ok shared =>
          by_cases hlength : nonce.length = nonceSize
          · cases hopen : c.aes256gcm.decrypt (c.hkdf.derive shared
              (ephemeral ++ c.x25519.publicKey receiver) (bytesOf encryptionInfo)) nonce sent
              (payloadAAD deliveryID ts) with
            | none => simp [bind, Except.bind, pure, Except.pure, hsize, hshared, hlength, hopen]
            | some p => simp [bind, Except.bind, pure, Except.pure, hsize, hshared, hlength, hopen]
          · simp [bind, Except.bind, pure, Except.pure, hsize, hshared, hlength]
    · simp [hsize]

/-- A sealed payload opens to the receiver's key under what it was sealed with, and otherwise not at
all. The salt keeps public keys apart even where they agree on one secret. -/
theorem openPayload_sealed
    (hseal : c.sealPayload (c.x25519.publicKey receiver) body d = .ok (sent, headers)) :
    ∃ ephemeral nonce, headers = encryptionHeaders ephemeral nonce ∧
      ∀ {opener : π} {ephemeralB64 nonceB64 deliveryID : Bytes} {ts : Int} {plaintext : Bytes},
        c.openPayload opener sent ephemeralB64 nonceB64 deliveryID ts = .ok plaintext ↔
          c.x25519.publicKey opener = c.x25519.publicKey receiver ∧
          decodeString ephemeralB64 = some ephemeral ∧ decodeString nonceB64 = some nonce ∧
          deliveryID = d.deliveryID ∧ ts = d.ts ∧ plaintext = body := by
  obtain ⟨ephemeral, shared, nonce, -, hshared, -, rfl, hheaders⟩ := sealPayload_ok_iff.mp hseal
  refine ⟨c.x25519.publicKey ephemeral, nonce.1, hheaders, ?_⟩
  intro opener ephemeralB64 nonceB64 deliveryID ts plaintext
  rw [openPayload_ok_iff]
  constructor
  · rintro ⟨eph, non, secret, heph, hsize, hnon, -, -, hopen⟩
    obtain ⟨hkey, rfl, haad, rfl⟩ := c.aes256gcm.decrypt_encrypt.mp hopen
    have hsalt := (c.hkdf.derive_inj hkey).2.1
    -- public keys have one length, so the salt splits into the two in one way only
    have hlength : eph.length = (c.x25519.publicKey ephemeral).length :=
      hsize.trans (c.x25519.length_publicKey ephemeral).symm
    obtain ⟨rfl, hopener⟩ := List.append_inj hsalt hlength
    obtain ⟨rfl, rfl⟩ := payloadAAD_inj haad
    exact ⟨hopener, heph, hnon, rfl, rfl, rfl⟩
  · rintro ⟨hopener, heph, hnon, rfl, rfl, rfl⟩
    -- the receiver's half of the agreement is the sender's
    have hagreed : c.x25519.ecdh opener (c.x25519.publicKey ephemeral) = .ok shared := by
      rw [c.x25519.ecdh_comm, hopener, hshared]
    refine ⟨_, _, shared, heph, c.x25519.length_publicKey ephemeral, hnon, hagreed, nonce.2, ?_⟩
    rw [hopener]
    exact c.aes256gcm.decrypt_encrypt.mpr ⟨rfl, rfl, rfl, rfl⟩

/-! ### Deliveries -/

variable {privateKey : ς} {s : Trusts ρ} {rawURL : String} {contentType : Bytes} {peer : Peer}
  {out : Option Headers}

/-- What is sent to a trusted receiver is signed, and it is the body itself or sealed to the key of
the receiver. -/
theorem sealDelivery_ok_iff (hdomain : extractDomain rawURL ≠ "")
    (hpeer : s.trusts.lookup (extractDomain rawURL) = some peer) :
    c.sealDelivery privateKey s rawURL body contentType d = .ok (sent, out) ↔
    ∃ more, out = some (c.signHeaders privateKey sent d.deliveryID d.ts ∪ more) ∧
      (peer.encryption = none ∧ sent = body ∧ more = ∅ ∨
        ∃ receiverPub encHeaders, peer.encryption = some receiverPub ∧
          c.sealPayload receiverPub body d = .ok (sent, encHeaders) ∧
          more = contentHeaders encHeaders contentType) := by
  obtain ⟨signing, encryption⟩ := peer
  unfold sealDelivery
  dsimp only
  rw [if_neg hdomain, hpeer]
  cases encryption with
  | none =>
    simp only [Except.ok.injEq, Prod.mk.injEq]
    constructor
    · rintro ⟨rfl, rfl⟩
      exact ⟨∅, rfl, .inl ⟨trivial, rfl, rfl⟩⟩
    · rintro ⟨more, rfl, ⟨-, rfl, rfl⟩ | ⟨receiverPub, encHeaders, hkey, -⟩⟩
      · exact ⟨rfl, rfl⟩
      · cases hkey
  | some receiverPub =>
    cases hseal : c.sealPayload receiverPub body d with
    | error err => simp [hseal]
    | ok payload =>
      obtain ⟨ciphertext, encHeaders⟩ := payload
      simp only [hseal, Except.ok.injEq, Prod.mk.injEq]
      constructor
      · rintro ⟨rfl, rfl⟩
        exact ⟨_, rfl, .inr ⟨receiverPub, encHeaders, rfl, hseal, rfl⟩⟩
      · rintro ⟨more, rfl, ⟨hkey, -⟩ | ⟨receiverPub', encHeaders', hkey, hseal', rfl⟩⟩
        · cases hkey
        · cases hkey
          obtain ⟨rfl, rfl⟩ := Prod.mk.inj (Except.ok.inj (hseal.symm.trans hseal'))
          exact ⟨rfl, rfl⟩

theorem verifySignature_signHeaders (more : Headers) (deliveryID : Bytes) (ts : Int) :
    c.verifySignature (c.ed25519.publicKey privateKey)
      (c.signHeaders privateKey sent deliveryID ts ∪ more) sent = true := by
  have hsign := c.ed25519.verify_sign privateKey (c.signedText sent deliveryID (decimal ts))
  simpa [-AList.insert_empty, verifySignature, signHeaders] using hsign

/-- The headers tell the receiver what it needs. -/
theorem envelope_signHeaders (ephemeral nonce : Bytes) :
    envelope (c.signHeaders privateKey sent d.deliveryID d.ts ∪
      contentHeaders (encryptionHeaders ephemeral nonce) contentType) =
    some ⟨encodeToString ephemeral, encodeToString nonce, d.deliveryID, d.ts⟩ := by
  have hts : Texts.parseInt (Utf8.latin (decimal d.ts)) = some d.ts := by
    rw [latin_decimal, Texts.parseInt_formatInt d.isInt64_ts]
  simp [-AList.insert_empty, envelope, signHeaders, contentHeaders, encryptionHeaders, hts]

/-- Payload keys and nonces that were drawn and keys that agree are all a sealed delivery needs. -/
theorem sealDelivery_succeeds {signing receiverPub shared : Bytes} {ephemeral : π}
    {nonce : { nonce : Bytes // nonce.length = nonceSize }} (hdomain : extractDomain rawURL ≠ "")
    (hpeer : s.trusts.lookup (extractDomain rawURL) = some ⟨signing, some receiverPub⟩)
    (hephemeral : d.ephemeral = .ok ephemeral) (hnonce : d.nonce = .ok nonce)
    (hshared : c.x25519.ecdh ephemeral receiverPub = .ok shared) :
    ∃ sent headers, c.sealDelivery privateKey s rawURL body contentType d =
      .ok (sent, some headers) := by
  obtain ⟨sent, encHeaders, hseal⟩ : ∃ sent encHeaders,
      c.sealPayload receiverPub body d = .ok (sent, encHeaders) :=
    ⟨_, _, sealPayload_ok_iff.mpr
      ⟨ephemeral, shared, nonce, hephemeral, hshared, hnonce, rfl, rfl⟩⟩
  exact ⟨sent, _, (sealDelivery_ok_iff hdomain hpeer).mpr
    ⟨_, rfl, .inr ⟨receiverPub, encHeaders, rfl, hseal, rfl⟩⟩⟩

/-- An encrypted delivery opens to its receiver as the body, with what its headers say and with
nothing else. -/
theorem opens_of_sealDelivery {signing : Bytes} (hdomain : extractDomain rawURL ≠ "")
    (hpeer : s.trusts.lookup (extractDomain rawURL) =
      some ⟨signing, some (c.x25519.publicKey receiver)⟩)
    (hsent : c.sealDelivery privateKey s rawURL body contentType d = .ok (sent, out)) :
    ∃ headers e, out = some headers ∧ envelope headers = some e ∧
      (∀ {e' plaintext}, c.openEnvelope receiver sent e' = .ok plaintext ↔
        e'.Same e ∧ plaintext = body) ∧
      c.verifySignature (c.ed25519.publicKey privateKey) headers sent = true := by
  obtain ⟨more, rfl, ⟨hplain, -⟩ | ⟨receiverPub, encHeaders, hkey, hseal, rfl⟩⟩ :=
    (sealDelivery_ok_iff hdomain hpeer).mp hsent
  · cases hplain
  · cases hkey
    obtain ⟨ephemeral, nonce, rfl, hopens⟩ := openPayload_sealed hseal
    refine ⟨_, _, rfl, envelope_signHeaders ephemeral nonce, ?_, verifySignature_signHeaders _ _ _⟩
    intro e' plaintext
    refine hopens.trans ?_
    simp only [Envelope.Same, decodeString_encodeToString]
    tauto

/-- An encrypted delivery is there once its keys and nonce are. Opened with the headers it has, it
is the body that was sealed; with another delivery id, another timestamp or other bytes of the
ephemeral key or the nonce it does not open; and its signature is one of the bytes that are sent. -/
theorem sealed_delivery_opens (c : Suite π κ ς) (privateKey : ς) (s : Trusts ρ) (rawURL : String)
    (body contentType : Bytes) (d : Draws π) (receiver : π) (signing : Bytes)
    (hdomain : extractDomain rawURL ≠ "")
    (hpeer : s.trusts.lookup (extractDomain rawURL) =
      some ⟨signing, some (c.x25519.publicKey receiver)⟩) :
    (∀ ephemeral nonce shared, d.ephemeral = .ok ephemeral → d.nonce = .ok nonce →
      c.x25519.ecdh ephemeral (c.x25519.publicKey receiver) = .ok shared →
      ∃ sent headers, c.sealDelivery privateKey s rawURL body contentType d =
        .ok (sent, some headers)) ∧
    ∀ sent out, c.sealDelivery privateKey s rawURL body contentType d = .ok (sent, out) →
      ∃ headers e, out = some headers ∧ envelope headers = some e ∧
        c.openEnvelope receiver sent e = .ok body ∧
        (∀ e' : Envelope, ¬ e'.Same e → ∃ err, c.openEnvelope receiver sent e' = .error err) ∧
        c.verifySignature (c.ed25519.publicKey privateKey) headers sent = true := by
  refine ⟨fun ephemeral nonce shared => sealDelivery_succeeds hdomain hpeer, ?_⟩
  intro sent out hsent
  obtain ⟨headers, e, hout, henvelope, hopens, hverify⟩ :=
    opens_of_sealDelivery hdomain hpeer hsent
  refine ⟨headers, e, hout, henvelope, hopens.mpr ⟨.refl e, rfl⟩, fun e' hother => ?_, hverify⟩
  cases hopen : c.openEnvelope receiver sent e' with
  | error err => exact ⟨err, rfl⟩
  | ok plaintext => exact absurd (hopens.mp hopen).1 hother

/-- The laws can be met by algorithms that hide nothing. -/
def plainSuite : Suite UInt8 Bytes UInt8 where
  x25519 := Ideal.plainAgreement 31
  hkdf := Ideal.plainKdf
  aes256gcm := Ideal.plainAead
  ed25519 := Ideal.plainSignature 31
  sha256 := id

def plainDraws : Draws UInt8 where
  deliveryID := bytesOf "d.1"
  ts := 100
  isInt64_ts := by decide
  ephemeral := .ok 5
  nonce := .ok ⟨List.replicate 12 9, rfl⟩

/-- A delivery after a handshake with the receiver that has the private key 3. -/
theorem sealed_delivery_after_handshake : ∃ s : Trusts Unit,
    Trace.exec (Trusts.step Trusts.checkSignature some) {}
      [Trusts.handshake "https://a/hook" 1 3 1] = some s ∧
    ∃ sent headers e,
      plainSuite.sealDelivery 7 s "https://a/hook" (bytesOf "secret") (bytesOf "text/plain")
        plainDraws = .ok (sent, some headers) ∧
      envelope headers = some e ∧ plainSuite.openEnvelope 3 sent e = .ok (bytesOf "secret") ∧
      (∃ err, plainSuite.openEnvelope 3 sent { e with ts := e.ts + 1 } = .error err) ∧
      plainSuite.verifySignature (plainSuite.ed25519.publicKey 7) headers sent = true := by
  obtain ⟨s, hrun, hpeer⟩ : ∃ s : Trusts Unit,
      Trace.exec (Trusts.step Trusts.checkSignature some) {}
        [Trusts.handshake "https://a/hook" 1 3 1] = some s ∧
      s.trusts.lookup (extractDomain "https://a/hook") =
        some ⟨Trusts.plainKey 1, some (plainSuite.x25519.publicKey 3)⟩ :=
    ⟨_, rfl, by decide +kernel⟩
  obtain ⟨hsent, hopens⟩ := sealed_delivery_opens plainSuite 7 s "https://a/hook" (bytesOf "secret")
    (bytesOf "text/plain") plainDraws 3 (Trusts.plainKey 1) (by decide +kernel) hpeer
  obtain ⟨sent, headers, hsent⟩ := hsent 5 ⟨List.replicate 12 9, rfl⟩ [15] rfl rfl (by decide)
  obtain ⟨headers', e, hout, henvelope, hopen, hother, hverify⟩ := hopens sent _ hsent
  cases hout
  refine ⟨s, hrun, sent, headers, e, hsent, henvelope, hopen, hother _ fun hsame => ?_, hverify⟩
  have hts : e.ts + 1 = e.ts := hsame.2.1
  omega

end Suite

/-! ### From the handshake on -/

section Handshake

variable {π κ ς σ ρ : Type} {c : Suite π κ ς} {s t : Trusts ρ} {ev : TrustEvent σ}
  {verify : Bytes → String → Bytes → Bool}
  {compileRouteSchemas : List (String × σ) → Option (List (String × ρ))}
  {peer : Peer} {capabilities : List String} {pub : Bytes}

theorem parseEncryptionKey_encode (hcapable : encryptionCapability ∈ capabilities)
    (hsize : pub.length = publicKeySize) :
    parseEncryptionKey capabilities (String.ofList (Base64.encode pub)) = some pub := by
  have htext : Base64.encode pub ≠ [] := by
    refine Base64.encode_ne_nil ?_
    rintro rfl
    cases hsize
  simp [parseEncryptionKey, htext, hcapable, Base64.decode_encode, hsize]

/-- No receiver comes to be trusted under the empty domain. -/
theorem lookup_empty_step (hs : s.trusts.lookup "" = none)
    (hstep : s.step verify compileRouteSchemas ev = some t) : t.trusts.lookup "" = none := by
  cases ev with
  | schema ev => rw [(Trusts.step_schema_same hstep).1, hs]
  | ensureTrust webhookURL msg resp answer written =>
    cases hstep
    rcases Trusts.ensureTrust_cases verify s webhookURL msg resp answer written with
      ⟨htrusts, -⟩ | ⟨hdomain, m, pub, -, -, htrusts, -⟩
    · rw [htrusts, hs]
    · rw [htrusts, Assoc.lookup_insert_ite, if_neg hdomain.symm, hs]
  | observeSchemaHash rawURL hash removed =>
    cases hstep
    rcases Trusts.observeSchemaHash_cases s rawURL hash removed with ⟨htrusts, -⟩ | ⟨-, htrusts, -⟩
    · rw [htrusts, hs]
    · rw [htrusts, Assoc.lookup_erase_ite, hs, ite_self]
  | restart =>
    cases hstep
    refine Option.eq_none_iff_forall_ne_some.mpr fun peer hpeer => ?_
    rcases Assoc.lookup_collect_cases hpeer with ⟨e, -, hload⟩ | hnone
    · simp only [loadFile, Option.bind_eq_bind, Option.ite_none_right_eq_some,
        Option.bind_eq_some_iff, Option.ite_none_left_eq_some, Option.some.injEq, Prod.mk.injEq,
        not_or] at hload
      obtain ⟨-, tf, -, ⟨hdomain, -⟩, pub, -, -, hempty, -⟩ := hload
      exact hdomain hempty
    · cases hnone

/-- Along every run of the registry, whatever its directory holds, a delivery to a trusted receiver
is signed. -/
theorem trusted_delivery_signed {dir : TrustDir} {es : List (TrustEvent σ)} {privateKey : ς}
    {rawURL : String} {body contentType sent : Bytes} {d : Draws π} {out : Option Headers}
    (hrun : Trace.exec (Trusts.step verify compileRouteSchemas) { dir } es = some s)
    (hpeer : s.trusts.lookup (extractDomain rawURL) = some peer)
    (hsent : c.sealDelivery privateKey s rawURL body contentType d = .ok (sent, out)) :
    ∃ headers, out = some headers ∧
      c.verifySignature (c.ed25519.publicKey privateKey) headers sent = true := by
  have hempty : s.trusts.lookup "" = none := Trace.exec_always lookup_empty_step rfl hrun
  have hdomain : extractDomain rawURL ≠ "" := by
    intro heq
    rw [heq, hempty] at hpeer
    cases hpeer
  obtain ⟨more, rfl, -⟩ := (Suite.sealDelivery_ok_iff hdomain hpeer).mp hsent
  exact ⟨_, rfl, Suite.verifySignature_signHeaders _ _ _⟩

/-- What is sent after a handshake in which the receiver offered its key opens to the receiver. -/
theorem handshake_delivery_opens {webhookURL msg : String} {m : Meta} {answer : Option String}
    {written : Bool} {receiver : π} {privateKey : ς} {body contentType sent : Bytes} {d : Draws π}
    {out : Option Headers} (hnew : s.trusts.lookup (extractDomain webhookURL) = none)
    (hpeer : (s.ensureTrust verify webhookURL msg (some m) answer written).trusts.lookup
      (extractDomain webhookURL) = some peer)
    (hcapable : encryptionCapability ∈ m.capabilities)
    (hkey : m.encryptionPublicKey = String.ofList (Base64.encode (c.x25519.publicKey receiver)))
    (hsent : c.sealDelivery privateKey (s.ensureTrust verify webhookURL msg (some m) answer written)
      webhookURL body contentType d = .ok (sent, out)) :
    ∃ headers e, out = some headers ∧ envelope headers = some e ∧
      c.openEnvelope receiver sent e = .ok body := by
  rcases Trusts.ensureTrust_cases verify s webhookURL msg (some m) answer written with
    ⟨htrusts, -⟩ | ⟨hdomain, m', pub, hm, -, htrusts, -⟩
  · rw [htrusts, hnew] at hpeer
    cases hpeer
  · cases hm
    have hstored : (s.ensureTrust verify webhookURL msg (some m) answer written).trusts.lookup
        (extractDomain webhookURL) = some ⟨pub, some (c.x25519.publicKey receiver)⟩ := by
      rw [htrusts, AList.lookup_insert, hkey,
        parseEncryptionKey_encode hcapable (c.x25519.length_publicKey receiver)]
    obtain ⟨headers, e, hout, henvelope, hopens, -⟩ :=
      Suite.opens_of_sealDelivery hdomain hstored hsent
    exact ⟨headers, e, hout, henvelope, hopens.mpr ⟨.refl e, rfl⟩⟩

end Handshake

end Aquifer.L8
