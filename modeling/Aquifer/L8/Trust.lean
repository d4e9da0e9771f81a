import Mathlib.Data.List.Sort
import Mathlib.Data.Set.Function
import Aquifer.L8.SchemaCache
import Aquifer.Lib.Base64
import Aquifer.Lib.JsonText
import Aquifer.Lib.Url
import Aquifer.Storage.Results

/-! The receivers that are trusted: the handshake, the trust directory, what a restart reads back
from it, and what a changed schema hash drops. -/
namespace Aquifer.L8

/-! ### Domains and file names -/

def extractDomain (rawURL : String) : String :=
  match Url.parse rawURL.toList with
  | none => ""
  | some u => if u.host = [] then "" else String.ofList (u.scheme ++ "://".toList ++ u.host)

/-- `strings.TrimPrefix`. -/
def trimFront (front s : List Char) : List Char :=
  if front.isPrefixOf s then s.drop front.length else s

/-- What `strings.ReplaceAll` makes of a character. -/
def fileChar (c : Char) : Char := if c = ':' then '_' else c

def sanitizeDomain (domain : String) : String :=
  String.ofList ((trimFront "http://".toList (trimFront "https://".toList domain.toList)).map
    fileChar)

def fileName (domain : String) : String := sanitizeDomain domain ++ ".json"

/-! ### Keys -/

/-- What the handshake reads of a receiver's metadata. -/
structure Meta where
  protocolVersion : String := ""
  publicKey : String
  challengeEndpoint : String
  capabilities : List String := []
  encryptionPublicKey : String := ""

structure Peer where
  signing : Bytes
  encryption : Option Bytes
deriving DecidableEq

def encryptionCapability : String := "encrypted_payloads"

/-- The size of an Ed25519 and of an X25519 public key. -/
def publicKeySize : Nat := 32

def parseEncryptionKey (capabilities : List String) (keyB64 : String) : Option Bytes :=
  if keyB64 = "" ∨ encryptionCapability ∉ capabilities then none
  else
    match Base64.decode keyB64.toList with
    | none => none
    | some raw => if raw.length = publicKeySize then some raw else none

/-! ### Trust files -/

structure TrustFile where
  domain : String
  publicKey : String
  validatedAt : Int
  protocolVersion : String
  capabilities : List String
  encryptionPublicKey : String

/-- A trust file as a JSON object: the texts between the quotes of its strings, and its number. -/
structure TrustText where
  domain : List Char
  publicKey : List Char
  validatedAt : Int
  protocolVersion : List Char
  capabilities : List (List Char)
  encryptionPublicKey : Option (List Char)

open JsonText (quoteText omitEmpty readText readText_quoteText readText_omitEmpty)

def TrustFile.marshal (tf : TrustFile) : TrustText where
  domain := quoteText tf.domain
  publicKey := quoteText tf.publicKey
  validatedAt := tf.validatedAt
  protocolVersion := quoteText tf.protocolVersion
  capabilities := tf.capabilities.map quoteText
  encryptionPublicKey := omitEmpty tf.encryptionPublicKey

def TrustText.unmarshal (data : TrustText) : Option TrustFile := do
  let domain ← readText (some data.domain)
  let publicKey ← readText (some data.publicKey)
  let protocolVersion ← readText (some data.protocolVersion)
  let capabilities ← data.capabilities.mapM fun text => readText (some text)
  let encryptionPublicKey ← readText data.encryptionPublicKey
  return { domain, publicKey, validatedAt := data.validatedAt, protocolVersion, capabilities,
           encryptionPublicKey }

/-- The files of the trust directory. -/
abbrev TrustDir := Assoc String TrustText

def trustFile (now : Time) (domain : String) (pub : Bytes) (m : Meta) : TrustFile where
  domain
  publicKey := String.ofList (Base64.encode pub)
  validatedAt := now / 1000000000
  protocolVersion := m.protocolVersion
  capabilities := m.capabilities
  encryptionPublicKey := m.encryptionPublicKey

/-- `saveTrustToDisk`; `written` says if the file could be written. -/
def saveTrustToDisk (dir : TrustDir) (now : Time) (domain : String) (pub : Bytes) (m : Meta)
    (written : Bool) : TrustDir :=
  if written then dir.insert (fileName domain) (trustFile now domain pub m).marshal else dir

/-- `os.Remove` of a domain's file; `removed` says if a file that is there could be removed. -/
def removeTrust (dir : TrustDir) (domain : String) (removed : Bool) : TrustDir :=
  if removed then dir.erase (fileName domain) else dir

def loadFile (name : String) (data : TrustText) : Option (String × Peer) :=
  if ".json".toList.isSuffixOf name.toList then do
    let tf ← data.unmarshal
    if tf.domain = "" ∨ tf.publicKey = "" then none
    else
      let pub ← Base64.decode tf.publicKey.toList
      if pub.length ≠ publicKeySize then none
      else some (tf.domain, ⟨pub, parseEncryptionKey tf.capabilities tf.encryptionPublicKey⟩)
  else none

/-- `os.ReadDir`, in the order of the names. -/
def readDir (dir : TrustDir) : List ((_ : String) × TrustText) :=
  dir.entries.insertionSort fun e e' => e.1 ≤ e'.1

def loadTrustsFromDisk (dir : TrustDir) : Assoc String Peer :=
  Assoc.collect (fun e => loadFile e.1 e.2) ∅ (readDir dir)

/-! ### The registry -/

def negativeTTL : Time := 300000000000

/-- The client makes requests of these schemes only. -/
def isHTTP (url : String) : Bool :=
  "http://".toList.isPrefixOf url.toList || "https://".toList.isPrefixOf url.toList

/-- `fetchMeta`, where `resp` is the metadata of a good response. -/
def fetchMeta (baseURL : String) (resp : Option Meta) : Option Meta :=
  if isHTTP baseURL then resp.filter fun m => m.publicKey ≠ "" && m.challengeEndpoint ≠ ""
  else none

/-- The receiver's key, if its answer to the challenge `msg` proves that it has it. -/
def provenKey (verify : Bytes → String → Bytes → Bool) (m : Meta) (msg : String)
    (answer : Option String) : Option Bytes := do
  let signature ← answer
  if signature = "" then none
  else
    let receiverPub ← Base64.decode m.publicKey.toList
    if receiverPub.length ≠ publicKeySize then none
    else
      let receiverSig ← Base64.decode signature.toList
      if verify receiverPub msg receiverSig then some receiverPub else none

/-- The registry and its trust directory. The clock is that of the schema cache. -/
structure Trusts (ρ : Type) where
  schemaValidation : Bool := false
  schemas : SchemaCache ρ := {}
  trusts : Assoc String Peer := ∅
  notL8 : Assoc String Time := ∅
  dir : TrustDir := ∅

inductive TrustEvent (σ : Type)
  /-- A step of the schema cache. -/
  | schema (ev : SchemaEvent σ)
  /-- With the metadata and the signature that the receiver answers. -/
  | ensureTrust (webhookURL msg : String) (resp : Option Meta) (answer : Option String)
      (written : Bool)
  | observeSchemaHash (rawURL hash : String) (removed : Bool)
  /-- `NewRegistry` on the same directory. -/
  | restart (schemaValidation : Bool) (minRefetchAge : Int)

/-- The event is about domains of the set, and the file operations succeed. -/
def TrustEvent.Within {σ : Type} (D : Set String) : TrustEvent σ → Prop
  | .ensureTrust webhookURL _ _ _ written =>
    (extractDomain webhookURL ≠ "" → extractDomain webhookURL ∈ D) ∧ written = true
  | .observeSchemaHash rawURL _ removed =>
    (extractDomain rawURL ≠ "" → extractDomain rawURL ∈ D) ∧ removed = true
  | _ => True

namespace Trusts

variable {σ ρ : Type}

section Model

variable (verify : Bytes → String → Bytes → Bool)
  (compileRouteSchemas : List (String × σ) → Option (List (String × ρ))) (s : Trusts ρ)

def ensureTrust (webhookURL msg : String) (resp : Option Meta) (answer : Option String)
    (written : Bool) : Trusts ρ :=
  let domain := extractDomain webhookURL
  let now := s.schemas.now
  if domain = "" then s
  else if (s.trusts.lookup domain).isSome then s
  else if (s.notL8.lookup domain).any fun probed => now - probed < negativeTTL then s
  else
    match fetchMeta domain resp with
    | none => { s with notL8 := s.notL8.insert domain now }
    | some m =>
      let s := { s with notL8 := s.notL8.erase domain }
      match provenKey verify m msg answer with
      | none => s
      | some receiverPub =>
        { s with
          trusts := s.trusts.insert domain
            ⟨receiverPub, parseEncryptionKey m.capabilities m.encryptionPublicKey⟩
          dir := saveTrustToDisk s.dir now domain receiverPub m written }

def observeSchemaHash (rawURL hash : String) (removed : Bool) : Trusts ρ :=
  if !s.schemaValidation || hash = "" then s
  else
    let domain := extractDomain rawURL
    if domain = "" then s
    else
      let (schemas, dropped) := s.schemas.invalidateIfStale domain hash
      if dropped then
        { s with
          schemas
          trusts := s.trusts.erase domain
          dir := removeTrust s.dir domain removed }
      else s

def restart (schemaValidation : Bool) (minRefetchAge : Int) : Trusts ρ where
  schemaValidation
  schemas := { minRefetchAge, now := s.schemas.now }
  trusts := loadTrustsFromDisk s.dir
  dir := s.dir

/-- Entries of the schema cache are invalidated by `ObserveSchemaHash` only. -/
def step : TrustEvent σ → Option (Trusts ρ)
  | .schema (.invalidateIfStale _ _) => none
  | .schema ev => (s.schemas.step compileRouteSchemas ev).map fun schemas => { s with schemas }
  | .ensureTrust webhookURL msg resp answer written =>
    some (s.ensureTrust verify webhookURL msg resp answer written)
  | .observeSchemaHash rawURL hash removed => some (s.observeSchemaHash rawURL hash removed)
  | .restart schemaValidation minRefetchAge => some (s.restart schemaValidation minRefetchAge)

end Model

end Trusts

/-! ### File names -/

section Names

variable {host host' : List Char} {domain domain' : String}

theorem trimFront_append (front s : List Char) : trimFront front (front ++ s) = s := by
  have hfront : front.isPrefixOf (front ++ s) = true :=
    List.isPrefixOf_iff_prefix.mpr (List.prefix_append front s)
  rw [trimFront, if_pos hfront, List.drop_left]

/-- A host, which has no slash, does not begin with a scheme. -/
theorem trimFront_of_notMem {front : List Char} (hfront : '/' ∈ front) (h : '/' ∉ host) :
    trimFront front host = host := by
  rw [trimFront, if_neg]
  exact fun hf => h ((List.isPrefixOf_iff_prefix.mp hf).subset hfront)

theorem sanitizeDomain_https (h : '/' ∉ host) :
    sanitizeDomain (String.ofList ("https://".toList ++ host)) =
      String.ofList (host.map fileChar) := by
  have hlist : (String.ofList ("https://".toList ++ host)).toList = "https://".toList ++ host :=
    String.toList_ofList
  rw [sanitizeDomain, hlist, trimFront_append, trimFront_of_notMem (by decide) h]

theorem sanitizeDomain_http (host : List Char) :
    sanitizeDomain (String.ofList ("http://".toList ++ host)) =
      String.ofList (host.map fileChar) := by
  have hlist : (String.ofList ("http://".toList ++ host)).toList = "http://".toList ++ host :=
    String.toList_ofList
  have hother : trimFront "https://".toList ("http://".toList ++ host) =
      "http://".toList ++ host := by
    rw [trimFront, if_neg]
    simp [List.isPrefixOf]
  rw [sanitizeDomain, hlist, hother, trimFront_append]

/-- Names without an underscore keep apart. -/
theorem map_fileChar_inj (h : '_' ∉ host) (h' : '_' ∉ host')
    (heq : host.map fileChar = host'.map fileChar) : host = host' := by
  have hback : ∀ {l : List Char}, '_' ∉ l →
      (l.map fileChar).map (fun c => if c = '_' then ':' else c) = l := by
    intro l hl
    rw [List.map_map]
    refine (List.map_congr_left fun c hc => ?_).trans (List.map_id l)
    have hne : c ≠ '_' := fun hc' => hl (hc' ▸ hc)
    by_cases hcolon : c = ':'
    · simp [fileChar, hcolon]
    · simp [fileChar, hcolon, hne]
  rw [← hback h, ← hback h', heq]

/-- The domains of one scheme whose hosts have no underscore. -/
def plainDomains : Set String :=
  fun domain => ∃ host : List Char, domain = String.ofList ("https://".toList ++ host) ∧
    '/' ∉ host ∧ '_' ∉ host

theorem injOn_plainDomains : Set.InjOn sanitizeDomain plainDomains := by
  rintro _ ⟨host, rfl, hslash, hplain⟩ _ ⟨host', rfl, hslash', hplain'⟩ heq
  rw [sanitizeDomain_https hslash, sanitizeDomain_https hslash', String.ofList_inj] at heq
  rw [map_fileChar_inj hplain hplain' heq]

theorem fileName_inj : fileName domain = fileName domain' ↔
    sanitizeDomain domain = sanitizeDomain domain' := by
  simp [fileName, String.ext_iff]

/-- A host's receivers under the two schemes have one file. -/
theorem fileName_schemes (h : '/' ∉ host) :
    fileName (String.ofList ("http://".toList ++ host)) =
      fileName (String.ofList ("https://".toList ++ host)) := by
  rw [fileName_inj, sanitizeDomain_http, sanitizeDomain_https h]

end Names

/-! ### What is saved is read back -/

section Files

variable {domain name : String} {pub : Bytes} {m : Meta} {dir : TrustDir} {now : Time}
  {tf : TrustFile} {data : TrustText}

theorem unmarshal_marshal (tf : TrustFile) : tf.marshal.unmarshal = some tf := by
  have hcapabilities : (tf.capabilities.map quoteText).mapM (fun text => readText (some text)) =
      some tf.capabilities := by
    induction tf.capabilities with
    | nil => rfl
    | cons capability rest ih => simp [readText_quoteText, ih]
  simp [TrustFile.marshal, TrustText.unmarshal, readText_quoteText, readText_omitEmpty,
    hcapabilities]

theorem loadFile_trustFile (hdomain : domain ≠ "") (hpub : pub.length = publicKeySize) :
    loadFile (fileName domain) (trustFile now domain pub m).marshal =
      some (domain, ⟨pub, parseEncryptionKey m.capabilities m.encryptionPublicKey⟩) := by
  have hname : ".json".toList.isSuffixOf (fileName domain).toList = true := by
    rw [fileName, String.toList_append]
    exact List.isSuffixOf_iff_suffix.mpr (List.suffix_append _ _)
  have hkey : Base64.encode pub ≠ [] := by
    refine Base64.encode_ne_nil ?_
    rintro rfl
    cases hpub
  rw [loadFile, if_pos hname, unmarshal_marshal]
  simp [trustFile, hdomain, hkey, Base64.decode_encode, hpub]

end Files

namespace Trusts

variable {σ ρ : Type} {verify : Bytes → String → Bytes → Bool}
  {compileRouteSchemas : List (String × σ) → Option (List (String × ρ))} {s t : Trusts ρ}
  {ev : TrustEvent σ} {D : Set String} {trusts trusts' : Assoc String Peer} {dir : TrustDir}
  {domain name : String} {p : Peer} {data : TrustText}

/-- The trusts and the files of the directory are those of the same domains, each under its name. -/
structure Saved (D : Set String) (trusts : Assoc String Peer) (dir : TrustDir) : Prop where
  trust : ∀ {domain p}, trusts.lookup domain = some p → domain ∈ D ∧
    ∃ data, dir.lookup (fileName domain) = some data ∧
      loadFile (fileName domain) data = some (domain, p)
  file : ∀ {name data}, dir.lookup name = some data → ∃ domain p, name = fileName domain ∧
    loadFile name data = some (domain, p) ∧ trusts.lookup domain = some p

theorem mem_readDir {e : (_ : String) × TrustText} :
    e ∈ readDir dir ↔ dir.lookup e.1 = some e.2 := by
  rw [readDir, List.mem_insertionSort]
  exact Assoc.mem_entries_iff

theorem Saved.lookup_load (h : Saved D trusts dir) (domain : String) :
    (loadTrustsFromDisk dir).lookup domain = trusts.lookup domain := by
  have hloaded : ∀ {e : (_ : String) × TrustText} {p}, e ∈ readDir dir →
      loadFile e.1 e.2 = some (domain, p) → trusts.lookup domain = some p := by
    intro e p he hload
    obtain ⟨domain', p', -, hload', htrust⟩ := h.file (mem_readDir.mp he)
    cases hload.symm.trans hload'
    exact htrust
  ext p
  rw [loadTrustsFromDisk, Assoc.lookup_collect_iff]
  · constructor
    · rintro ⟨e, he, hload⟩
      exact hloaded he hload
    · intro htrust
      obtain ⟨-, data, hdata, hload⟩ := h.trust htrust
      exact ⟨⟨fileName domain, data⟩, mem_readDir.mpr hdata, hload⟩
  · intro e e' p p' he he' hload hload'
    exact Option.some.inj ((hloaded he hload).symm.trans (hloaded he' hload'))

/-- Saving a trust under the file name of another domain loses the other's, whatever the keys. -/
theorem lookup_load_of_taken {domain' : String} {pub : Bytes} {m : Meta} {now : Time}
    (hfile : ∀ {name data p}, dir.lookup name = some data →
      loadFile name data = some (domain, p) → name = fileName domain)
    (hname : fileName domain' = fileName domain) (hne : domain' ≠ domain) (hdomain' : domain' ≠ "")
    (hpub : pub.length = publicKeySize) :
    (loadTrustsFromDisk (saveTrustToDisk dir now domain' pub m true)).lookup domain = none := by
  rw [Option.eq_none_iff_forall_ne_some]
  intro p hp
  obtain ⟨⟨name, data⟩, he, hload⟩ := (Assoc.lookup_collect_cases hp).resolve_right (by simp)
  have he := Assoc.lookup_insert_ite.symm.trans (mem_readDir.mp he)
  dsimp only at he hload
  split at he
  · next heq =>
    cases he
    rw [heq, loadFile_trustFile hdomain' hpub] at hload
    exact hne (congrArg Prod.fst (Option.some.inj hload))
  · next hother => exact hother ((hfile he hload).trans hname.symm)

theorem fileName_ne (hD : Set.InjOn sanitizeDomain D) {domain' : String} (h : domain ∈ D)
    (h' : domain' ∈ D) (hne : domain' ≠ domain) : fileName domain' ≠ fileName domain :=
  fun heq => hne (hD h' h (fileName_inj.mp heq))

theorem Saved.store (h : Saved D trusts dir) (hD : Set.InjOn sanitizeDomain D)
    (hdomain : domain ∈ D)
    (hload : loadFile (fileName domain) data = some (domain, p)) :
    Saved D (trusts.insert domain p) (dir.insert (fileName domain) data) where
  trust {domain' p'} htrust := by
    rw [Assoc.lookup_insert_ite] at htrust ⊢
    split at htrust
    · next heq =>
      subst heq
      cases htrust
      exact ⟨hdomain, data, if_pos rfl, hload⟩
    · next hne =>
      obtain ⟨hmem, htrust⟩ := h.trust htrust
      rw [if_neg (fileName_ne hD hdomain hmem hne)]
      exact ⟨hmem, htrust⟩
  file {name data'} hfile := by
    rw [Assoc.lookup_insert_ite] at hfile
    split at hfile
    · next heq =>
      subst heq
      cases hfile
      exact ⟨domain, p, rfl, hload, by rw [Assoc.lookup_insert_ite, if_pos rfl]⟩
    · next hne =>
      obtain ⟨domain', p', rfl, hload', htrust⟩ := h.file hfile
      refine ⟨domain', p', rfl, hload', ?_⟩
      rw [Assoc.lookup_insert_ite, if_neg (mt (congrArg fileName) hne)]
      exact htrust

theorem Saved.drop (h : Saved D trusts dir) (hD : Set.InjOn sanitizeDomain D)
    (hdomain : domain ∈ D) :
    Saved D (trusts.erase domain) (dir.erase (fileName domain)) where
  trust {domain' p'} htrust := by
    rw [Assoc.lookup_erase_ite, Option.ite_none_left_eq_some] at htrust
    obtain ⟨hne, htrust⟩ := htrust
    obtain ⟨hmem, htrust⟩ := h.trust htrust
    rw [Assoc.lookup_erase_ite, if_neg (fileName_ne hD hdomain hmem hne)]
    exact ⟨hmem, htrust⟩
  file {name data'} hfile := by
    rw [Assoc.lookup_erase_ite, Option.ite_none_left_eq_some] at hfile
    obtain ⟨hne, hfile⟩ := hfile
    obtain ⟨domain', p', rfl, hload', htrust⟩ := h.file hfile
    refine ⟨domain', p', rfl, hload', ?_⟩
    rw [Assoc.lookup_erase_ite, if_neg (mt (congrArg fileName) hne)]
    exact htrust

theorem Saved.reload (h : Saved D trusts dir) : Saved D (loadTrustsFromDisk dir) dir where
  trust htrust := h.trust ((h.lookup_load _).symm.trans htrust)
  file hfile := by
    obtain ⟨domain, p, hname, hload, htrust⟩ := h.file hfile
    exact ⟨domain, p, hname, hload, (h.lookup_load domain).trans htrust⟩

/-! ### Runs -/

theorem length_of_provenKey {m : Meta} {msg : String} {answer : Option String} {pub : Bytes}
    (h : provenKey verify m msg answer = some pub) : pub.length = publicKeySize := by
  simp only [provenKey, Option.bind_eq_bind, Option.bind_eq_some_iff, Option.ite_none_left_eq_some,
    Option.ite_none_right_eq_some, Option.some.injEq, ne_eq, not_not] at h
  obtain ⟨signature, -, -, receiverPub, -, hlength, receiverSig, -, -, rfl⟩ := h
  exact hlength

theorem of_fetchMeta {baseURL : String} {resp : Option Meta} {m : Meta}
    (h : fetchMeta baseURL resp = some m) : resp = some m := by
  unfold fetchMeta at h
  split at h
  · exact (Option.filter_eq_some_iff.mp h).1
  · cases h

/-- Trusts and files change only when a handshake completes. -/
theorem ensureTrust_cases (verify : Bytes → String → Bytes → Bool) (s : Trusts ρ)
    (webhookURL msg : String) (resp : Option Meta) (answer : Option String) (written : Bool) :
    let t := s.ensureTrust verify webhookURL msg resp answer written
    (t.trusts = s.trusts ∧ t.dir = s.dir) ∨
    extractDomain webhookURL ≠ "" ∧ ∃ (m : Meta) (pub : Bytes), resp = some m ∧
    pub.length = publicKeySize ∧
      t.trusts = s.trusts.insert (extractDomain webhookURL)
        ⟨pub, parseEncryptionKey m.capabilities m.encryptionPublicKey⟩ ∧
      t.dir = saveTrustToDisk s.dir s.schemas.now (extractDomain webhookURL) pub m written := by
  unfold ensureTrust
  dsimp only
  split_ifs with hdomain htrusted hprobed
  · exact .inl ⟨rfl, rfl⟩
  · exact .inl ⟨rfl, rfl⟩
  · exact .inl ⟨rfl, rfl⟩
  · split
    · exact .inl ⟨rfl, rfl⟩
    · next m hmeta =>
      split
      · exact .inl ⟨rfl, rfl⟩
      · next pub hproven =>
        exact .inr ⟨hdomain, m, pub, of_fetchMeta hmeta, length_of_provenKey hproven, rfl, rfl⟩

theorem observeSchemaHash_cases (s : Trusts ρ) (rawURL hash : String) (removed : Bool) :
    let t := s.observeSchemaHash rawURL hash removed
    (t.trusts = s.trusts ∧ t.dir = s.dir) ∨
    extractDomain rawURL ≠ "" ∧ t.trusts = s.trusts.erase (extractDomain rawURL) ∧
      t.dir = removeTrust s.dir (extractDomain rawURL) removed := by
  unfold observeSchemaHash
  dsimp only
  split_ifs with hoff hdomain hdropped
  · exact .inl ⟨rfl, rfl⟩
  · exact .inl ⟨rfl, rfl⟩
  · exact .inr ⟨hdomain, rfl, rfl⟩
  · exact .inl ⟨rfl, rfl⟩

theorem step_schema_same {ev : SchemaEvent σ}
    (hstep : s.step verify compileRouteSchemas (.schema ev) = some t) :
    t.trusts = s.trusts ∧ t.dir = s.dir := by
  cases ev with
  | invalidateIfStale domain hash => cases hstep
  | advance d | get k domain | load k | fetched k metadata | close k | wake k | sweep now =>
    simp only [step, Option.map_eq_some_iff] at hstep
    obtain ⟨schemas, -, rfl⟩ := hstep
    exact ⟨rfl, rfl⟩

theorem saved_step (hD : Set.InjOn sanitizeDomain D) (h : Saved D s.trusts s.dir)
    (hwithin : ev.Within D) (hstep : s.step verify compileRouteSchemas ev = some t) :
    Saved D t.trusts t.dir := by
  cases ev with
  | schema ev =>
    obtain ⟨htrusts, hdir⟩ := step_schema_same hstep
    rw [htrusts, hdir]
    exact h
  | ensureTrust webhookURL msg resp answer written =>
    cases hstep
    obtain ⟨hmem, rfl⟩ := hwithin
    rcases ensureTrust_cases verify s webhookURL msg resp answer true with
      ⟨htrusts, hdir⟩ | ⟨hdomain, m, pub, -, hpub, htrusts, hdir⟩
    · rw [htrusts, hdir]
      exact h
    · rw [htrusts, hdir]
      exact h.store hD (hmem hdomain) (loadFile_trustFile hdomain hpub)
  | observeSchemaHash rawURL hash removed =>
    cases hstep
    obtain ⟨hmem, rfl⟩ := hwithin
    rcases observeSchemaHash_cases s rawURL hash true with
      ⟨htrusts, hdir⟩ | ⟨hdomain, htrusts, hdir⟩
    · rw [htrusts, hdir]
      exact h
    · rw [htrusts, hdir]
      exact h.drop hD (hmem hdomain)
  | restart schemaValidation minRefetchAge =>
    cases hstep
    exact h.reload

/-- If no two of the domains have one file name, then after every run of handshakes, drops and
restarts a reload of the directory has the same signing and encryption key for every domain, and
dropping a domain's trust leaves the trusts and the files of the others. -/
theorem trust_survives_restart (verify : Bytes → String → Bytes → Bool)
    (compileRouteSchemas : List (String × σ) → Option (List (String × ρ))) (D : Set String)
    (hD : Set.InjOn sanitizeDomain D) (schemaValidation : Bool) (minRefetchAge : Int)
    (es : List (TrustEvent σ)) (s : Trusts ρ) (hes : ∀ ev ∈ es, ev.Within D)
    (hrun : Trace.exec (step verify compileRouteSchemas)
      { schemaValidation, schemas := { minRefetchAge } } es = some s) :
    (∀ domain, (loadTrustsFromDisk s.dir).lookup domain = s.trusts.lookup domain) ∧
    ∀ rawURL hash removed, extractDomain rawURL ∈ D → ∀ domain ∈ D, domain ≠ extractDomain rawURL →
      (s.observeSchemaHash rawURL hash removed).trusts.lookup domain = s.trusts.lookup domain ∧
      (s.observeSchemaHash rawURL hash removed).dir.lookup (fileName domain) =
        s.dir.lookup (fileName domain) := by
  have hsaved : Saved D s.trusts s.dir := by
    refine Trace.exec_invariant (I := fun s => Saved D s.trusts s.dir)
      (fun h hwithin hstep => saved_step hD h hwithin hstep) ⟨?_, ?_⟩
      (Trace.along_of_forall hes _) hrun
    · intro domain p htrust
      cases htrust
    · intro name data hfile
      cases hfile
  refine ⟨hsaved.lookup_load, fun rawURL hash removed hmem domain hdomain hne => ?_⟩
  rcases observeSchemaHash_cases s rawURL hash removed with
    ⟨htrusts, hdir⟩ | ⟨-, htrusts, hdir⟩
  · rw [htrusts, hdir]
    exact ⟨rfl, rfl⟩
  · rw [htrusts, hdir, Assoc.lookup_erase_ite, if_neg hne]
    refine ⟨rfl, ?_⟩
    unfold removeTrust
    split
    · rw [Assoc.lookup_erase_ite, if_neg (fileName_ne hD hmem hdomain hne)]
    · rfl

def plainKey (b : UInt8) : Bytes := List.replicate 32 b

def keyText (b : UInt8) : String := String.ofList (Base64.encode (plainKey b))

/-- A signature for the runs below: the key's first byte and the text. -/
def signature (key : Bytes) (msg : String) : Bytes :=
  key.take 1 ++ msg.toList.map fun ch => UInt8.ofNat ch.toNat

def checkSignature (key : Bytes) (msg : String) (sig : Bytes) : Bool := sig = signature key msg

/-- A handshake with a receiver that publishes these keys and answers with `signer`. -/
def handshake (webhookURL : String) (signing encryption signer : UInt8) : TrustEvent Unit :=
  .ensureTrust webhookURL "c:n"
    (some {
      publicKey := keyText signing
      challengeEndpoint := "/l8/challenge"
      capabilities := ["signed_payloads", "encrypted_payloads"]
      encryptionPublicKey := keyText encryption })
    (some (String.ofList (Base64.encode (signature (plainKey signer) "c:n")))) true

/-- Two receivers, and a third that does not have the key it publishes. -/
def threeReceivers : List (TrustEvent Unit) :=
  [handshake "https://a/hook" 1 2 1, handshake "https://b:8443/hook" 3 4 3,
    handshake "https://c/hook" 1 2 3]

theorem two_receivers_survive : ∃ s : Trusts Unit,
    Trace.exec (step checkSignature some) {} threeReceivers = some s ∧
      (loadTrustsFromDisk s.dir).lookup "https://a" = some ⟨plainKey 1, some (plainKey 2)⟩ ∧
      (loadTrustsFromDisk s.dir).lookup "https://b:8443" = some ⟨plainKey 3, some (plainKey 4)⟩ ∧
      (loadTrustsFromDisk s.dir).lookup "https://c" = none := by
  have hrun : ∃ s : Trusts Unit, Trace.exec (step checkSignature some) {} threeReceivers = some s ∧
      s.trusts.lookup "https://a" = some ⟨plainKey 1, some (plainKey 2)⟩ ∧
      s.trusts.lookup "https://b:8443" = some ⟨plainKey 3, some (plainKey 4)⟩ ∧
      s.trusts.lookup "https://c" = none := by
    decide +kernel
  obtain ⟨s, hs, ha, hb, hc⟩ := hrun
  have hwithin : ∀ ev ∈ threeReceivers, ev.Within plainDomains := by
    intro ev hev
    simp only [threeReceivers, List.mem_cons, List.not_mem_nil, or_false] at hev
    rcases hev with rfl | rfl | rfl
    · exact ⟨fun _ => ⟨"a".toList, by decide, by decide, by decide +kernel⟩, rfl⟩
    · exact ⟨fun _ => ⟨"b:8443".toList, by decide, by decide, by decide +kernel⟩, rfl⟩
    · exact ⟨fun _ => ⟨"c".toList, by decide, by decide, by decide +kernel⟩, rfl⟩
  have hload := (trust_survives_restart _ _ plainDomains injOn_plainDomains false
    schemaMinRefetchAge
    threeReceivers s hwithin hs).1
  exact ⟨s, hs, (hload _).trans ha, (hload _).trans hb, (hload _).trans hc⟩

/-- A receiver's schemas are fetched and change after the least age. -/
def changedSchema (domain : String) : List (TrustEvent Unit) :=
  [.schema (.get 0 domain), .schema (.load 0), .schema (.fetched 0 none), .schema (.close 0),
    .schema (.advance 10000000000), .observeSchemaHash (domain ++ "/") "v2" true]

/-- Two receivers on one host: the second handshake takes the file of the first, whose trust is gone
after a restart. And a changed schema on one scheme removes the file of the other. -/
theorem other_scheme_takes_file :
    (∃ s : Trusts Unit, Trace.exec (step checkSignature some) {}
        [handshake "https://a/hook" 1 2 1, handshake "http://a/hook" 3 4 3] = some s ∧
      s.trusts.lookup "https://a" = some ⟨plainKey 1, some (plainKey 2)⟩ ∧
      s.trusts.lookup "http://a" = some ⟨plainKey 3, some (plainKey 4)⟩ ∧
      (loadTrustsFromDisk s.dir).lookup "https://a" = none) ∧
    ∃ s : Trusts Unit, Trace.exec (step checkSignature some) { schemaValidation := true }
        (handshake "https://a/hook" 1 2 1 :: changedSchema "http://a") = some s ∧
      s.trusts.lookup "https://a" = some ⟨plainKey 1, some (plainKey 2)⟩ ∧
      (s.dir.lookup (fileName "https://a")).isNone = true := by
  decide +kernel

end Trusts

end Aquifer.L8
