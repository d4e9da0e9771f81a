import Aquifer.Storage.SQLite
import Aquifer.Lib.JsonText

/-! The response kept with a finished job: cut to some bytes, stored as JSON and read back. -/
namespace Aquifer

/-- A Go string, of any bytes. -/
abbrev Bytes := List UInt8

def utf8Bytes (s : String) : Bytes := Utf8.encode s.toList

def truncateStringBytes (s : Bytes) (maxBytes : Int) : Bytes × Bool :=
  if maxBytes = 0 then ([], s ≠ [])
  else if maxBytes < 0 ∨ s.length ≤ maxBytes then (s, false)
  else (s.take maxBytes.toNat, true)

/-- A `Result` before it is stored: what comes from the response has any bytes. -/
structure FreshResult where
  jobID : String
  status : Status
  responseStatus : Int := 0
  contentType : Bytes := []
  body : Bytes := []
  bodyTruncated : Bool := false
  recordedAt : Int := 0
  source : String := ""
deriving DecidableEq, Repr

/-- The JSON of a result, with the texts of its strings. Where a field that is empty or false is
left out, it is read back as such. -/
structure ResultText where
  jobID : List Char
  status : Status
  responseStatus : Int
  contentType : List Char
  body : List Char
  bodyTruncated : Bool
  recordedAt : Int
  source : List Char
deriving DecidableEq, Repr

def FreshResult.marshal (f : FreshResult) : ResultText where
  jobID := JsonText.quote (Utf8.runes (utf8Bytes f.jobID))
  status := f.status
  responseStatus := f.responseStatus
  contentType := JsonText.quote (Utf8.runes f.contentType)
  body := JsonText.quote (Utf8.runes f.body)
  bodyTruncated := f.bodyTruncated
  recordedAt := f.recordedAt
  source := JsonText.quote (Utf8.runes (utf8Bytes f.source))

def ResultText.unmarshal (t : ResultText) : Option Result := do
  let jobID ← JsonText.unquote t.jobID
  let contentType ← JsonText.unquote t.contentType
  let body ← JsonText.unquote t.body
  let source ← JsonText.unquote t.source
  return {
    jobID := String.ofList jobID
    status := t.status
    responseStatus := t.responseStatus
    contentType := String.ofList contentType
    body := String.ofList body
    bodyTruncated := t.bodyTruncated
    recordedAt := t.recordedAt
    source := String.ofList source }

/-- `SaveLocalResult` up to the store: nothing of a webhook delivery. -/
def Job.localResult (job : Job) (status : Status) (responseStatus : Int) (contentType body : Bytes)
    (maxBytes : Int) (now : Time) : Option FreshResult :=
  if job.isWebhookDelivery then none
  else
    let cut := truncateStringBytes body maxBytes
    some {
      jobID := job.id
      status := status
      responseStatus := responseStatus
      contentType := contentType
      body := cut.1
      bodyTruncated := cut.2
      recordedAt := unixMilli now
      source := "aquifer" }

/-! ### The stores -/

/-- `PutResult` on Pebble. The record is kept as it is decoded. -/
def Disk.saveResult (d : Disk) (id : String) (f : FreshResult) : Disk :=
  match f.marshal.unmarshal with
  | some result => d.putResult id result
  | none => d

def Disk.getResult (d : Disk) (id : String) (now : Time) : Option Result :=
  match d.jobs.get id with
  | some r => if r.live now then r.result else none
  | none => none

/-- The rows of SQLite with their column `result`. -/
structure ResultTable where
  jobs : Store
  result : KeySpace String ResultText := {}

namespace ResultTable

/-- `PutResult`, an `UPDATE` of the row there is. -/
def saveResult (q : ResultTable) (id : String) (f : FreshResult) : ResultTable :=
  match q.jobs.find id with
  | some _ => { q with result := q.result.put id f.marshal }
  | none => q

def getResult (q : ResultTable) (id : String) (now : Time) : Option Result :=
  match q.jobs.find id with
  | some r => if r.live now then (q.result.get id).bind ResultText.unmarshal else none
  | none => none

end ResultTable

/-- What the remote store is configured with: `ResultEnabled` and `ResultMaxBytes`. -/
structure RemoteResults where
  enabled : Bool
  maxBytes : Int
deriving DecidableEq, Repr

/-- `RecordResult`, on the results by their hashes. -/
def RemoteResults.recordResult (cfg : RemoteResults) (m : KeySpace String ResultText)
    (hash : String) (f : FreshResult) (now : Time) : KeySpace String ResultText × Bool :=
  if !cfg.enabled then (m, false)
  else
    let cut := truncateStringBytes f.body cfg.maxBytes
    let f := { f with
      body := cut.1
      bodyTruncated := cut.2
      source := if f.source = "" then "aquifer" else f.source
      recordedAt := if f.recordedAt = 0 then unixMilli now else f.recordedAt }
    (m.put hash f.marshal, true)

/-- `LookupResult`, which takes a result without a job for none. -/
def lookupResult (m : KeySpace String ResultText) (hash : String) : Option Result :=
  ((m.get hash).bind ResultText.unmarshal).filter (·.jobID ≠ "")

/-! ### What is read back -/

/-- The string that is read back of one that is written. -/
def readBack (s : Bytes) : String :=
  String.ofList ((Utf8.runes s).map (·.getD JsonText.replacement))

def FreshResult.stored (f : FreshResult) : Result where
  jobID := f.jobID
  status := f.status
  responseStatus := f.responseStatus
  contentType := readBack f.contentType
  body := readBack f.body
  bodyTruncated := f.bodyTruncated
  recordedAt := f.recordedAt
  source := f.source

theorem readBack_encode_append (cs : List Char) (s : Bytes) :
    (readBack (Utf8.encode cs ++ s)).toList = cs ++ (readBack s).toList := by
  rw [readBack, readBack, String.toList_ofList, String.toList_ofList, Utf8.runes_encode_append,
    List.map_append, List.map_map]
  exact congrArg (· ++ _) (List.map_id'' (fun _ => rfl) cs)

theorem toList_readBack_encode (cs : List Char) : (readBack (Utf8.encode cs)).toList = cs := by
  have hend : (readBack []).toList = [] := String.toList_ofList
  have happend := readBack_encode_append cs []
  rwa [List.append_nil, hend, List.append_nil] at happend

theorem readBack_utf8Bytes (s : String) : readBack (utf8Bytes s) = s :=
  String.toList_inj.mp (toList_readBack_encode s.toList)

theorem unmarshal_marshal (f : FreshResult) : f.marshal.unmarshal = some f.stored := by
  have hjob := readBack_utf8Bytes f.jobID
  have hsource := readBack_utf8Bytes f.source
  rw [readBack] at hjob hsource
  simp only [ResultText.unmarshal, FreshResult.marshal, JsonText.unquote_quote, Option.bind_eq_bind,
    Option.bind_some, Option.pure_def, hjob, hsource, FreshResult.stored, readBack]

theorem truncateStringBytes_eq (s : Bytes) (m : Nat) :
    truncateStringBytes s m = (s.take m, decide (m < s.length)) := by
  unfold truncateStringBytes
  split_ifs with hzero hfits
  · obtain rfl : m = 0 := by omega
    simp [List.length_pos_iff]
  · have hle : s.length ≤ m := by omega
    rw [List.take_of_length_le hle, decide_eq_false (by omega)]
  · rw [Int.toNat_natCast, decide_eq_true (by omega)]

/-- The body is a prefix of the response's, within the limit, and marked as cut if it is shorter. -/
def Result.IsPrefix (r : Result) (body : String) (m : Nat) : Prop :=
  r.body.toList <+: body.toList ∧ (utf8Bytes r.body).length ≤ m ∧
    (r.bodyTruncated = true ↔ (utf8Bytes r.body).length < (utf8Bytes body).length)

theorem isPrefix_of_boundary {r : Result} {body : String} {m : Nat}
    (hbody : r.body = readBack ((utf8Bytes body).take m))
    (hcut : r.bodyTruncated = decide (m < (utf8Bytes body).length))
    (h : Utf8.Boundary body.toList m) : r.IsPrefix body m := by
  obtain ⟨front, back, hsplit, htake⟩ := h
  have hlist : r.body.toList = front := by
    rw [hbody, utf8Bytes, htake, toList_readBack_encode]
  have hlen : (utf8Bytes r.body).length = min m (utf8Bytes body).length := by
    rw [utf8Bytes, hlist, ← htake, List.length_take]
    rfl
  refine ⟨⟨back, by rw [hlist, hsplit]⟩, by omega, ?_⟩
  rw [hcut, decide_eq_true_iff]
  omega

/-- The bytes of a character that is cut off are read back as three bytes each. -/
theorem length_of_inside {r : Result} {body : String} {m : Nat}
    (hbody : r.body = readBack ((utf8Bytes body).take m)) (h : Utf8.Inside body.toList m) :
    m < (utf8Bytes r.body).length := by
  obtain ⟨front, c, back, j, -, hpos, hlt, hm, htake⟩ := h
  have hlist : r.body.toList = front ++ List.replicate j JsonText.replacement := by
    rw [hbody, utf8Bytes, htake, readBack_encode_append, readBack, String.toList_ofList,
      Utf8.runes_take hlt, List.map_replicate]
    rfl
  have hthree : ∀ n : Nat,
      (Utf8.encode (List.replicate n JsonText.replacement)).length = 3 * n := by
    intro n
    induction n with
    | zero => rfl
    | succ n ih =>
      rw [List.replicate_succ, Utf8.encode_cons, List.length_append, ih]
      show 3 + 3 * n = _
      omega
  rw [utf8Bytes, hlist, Utf8.encode_append, List.length_append, hthree]
  omega

theorem isPrefix_iff {r : Result} {body : String} {m : Nat}
    (hbody : r.body = readBack ((utf8Bytes body).take m))
    (hcut : r.bodyTruncated = decide (m < (utf8Bytes body).length)) :
    r.IsPrefix body m ↔ Utf8.Boundary body.toList m := by
  refine ⟨fun h => ?_, isPrefix_of_boundary hbody hcut⟩
  refine (Utf8.boundary_or_inside body.toList m).resolve_right fun hinside => ?_
  exact absurd h.2.1 (Nat.not_le.mpr (length_of_inside hbody hinside))

theorem Disk.getResult_saveResult {d : Disk} {id : String} {r : Record} {now : Time}
    (hr : d.jobs.get id = some r) (hlive : r.live now = true) (f : FreshResult) :
    (d.saveResult id f).getResult id now = some f.stored := by
  have hput : (d.putResult id f.stored).jobs.get id = some { r with result := some f.stored } := by
    unfold Disk.putResult
    rw [hr]
    exact KeySpace.get_put.trans (if_pos rfl)
  unfold Disk.saveResult Disk.getResult
  rw [unmarshal_marshal]
  dsimp only
  rw [hput]
  exact if_pos hlive

theorem ResultTable.getResult_saveResult {q : ResultTable} {id : String} {r : Row} {now : Time}
    (hr : q.jobs.find id = some r) (hlive : r.live now = true) (f : FreshResult) :
    (q.saveResult id f).getResult id now = some f.stored := by
  unfold saveResult getResult
  rw [hr]
  dsimp only
  rw [hr]
  dsimp only
  rw [if_pos hlive, KeySpace.get_put, if_pos rfl, Option.bind_some, unmarshal_marshal]

theorem lookupResult_recordResult {cfg : RemoteResults} {m : KeySpace String ResultText}
    {hash : String} {f : FreshResult} {now : Time} (hon : cfg.enabled = true)
    (hjob : f.jobID ≠ "") :
    ∃ result, lookupResult (cfg.recordResult m hash f now).1 hash = some result ∧
      result.body = readBack (truncateStringBytes f.body cfg.maxBytes).1 ∧
      result.bodyTruncated = (truncateStringBytes f.body cfg.maxBytes).2 := by
  unfold RemoteResults.recordResult lookupResult
  rw [if_neg (by simp [hon])]
  dsimp only
  rw [KeySpace.get_put, if_pos rfl, Option.bind_some, unmarshal_marshal, Option.filter_some]
  exact ⟨_, if_pos (decide_eq_true hjob), rfl, rfl⟩

/-- Both backends return the same result of a job, for every response and limit, and the remote
store returns the same body with the same mark. It is a prefix of the response's body within the
limit, and marked if it is shorter, exactly if the limit does not fall inside a character. -/
theorem stored_body_is_beginning (job : Job) (hjob : job.isWebhookDelivery = false)
    (status : Status) (responseStatus : Int) (contentType : Bytes) (body : String) (m : Nat)
    (now : Time) :
    ∃ fresh result,
      job.localResult status responseStatus contentType (utf8Bytes body) m now = some fresh ∧
      (∀ (d : Disk) r t, d.jobs.get job.id = some r → r.live t = true →
        (d.saveResult job.id fresh).getResult job.id t = some result) ∧
      (∀ (q : ResultTable) r t, q.jobs.find job.id = some r → r.live t = true →
        (q.saveResult job.id fresh).getResult job.id t = some result) ∧
      (∀ (cfg : RemoteResults) cache hash f t, cfg.enabled = true → cfg.maxBytes = (m : Int) →
        f.jobID ≠ "" → f.body = utf8Bytes body →
        ∃ found, lookupResult (cfg.recordResult cache hash f t).1 hash = some found ∧
          found.body = result.body ∧ found.bodyTruncated = result.bodyTruncated) ∧
      (result.IsPrefix body m ↔ Utf8.Boundary body.toList m) := by
  have hcut := truncateStringBytes_eq (utf8Bytes body) m
  have hfresh : ∃ fresh : FreshResult,
      job.localResult status responseStatus contentType (utf8Bytes body) m now = some fresh ∧
      fresh.body = (utf8Bytes body).take m ∧
      fresh.bodyTruncated = decide (m < (utf8Bytes body).length) :=
    ⟨_, if_neg (by simp [hjob]), congrArg Prod.fst hcut, congrArg Prod.snd hcut⟩
  obtain ⟨fresh, hfresh, hbody, htruncated⟩ := hfresh
  refine ⟨fresh, fresh.stored, hfresh, fun d r t hr hlive => ?_, fun q r t hr hlive => ?_,
    fun cfg cache hash f t hon hmax hid hf => ?_, ?_⟩
  · exact Disk.getResult_saveResult hr hlive fresh
  · exact ResultTable.getResult_saveResult hr hlive fresh
  · obtain ⟨found, hfound, hsame, hmark⟩ := lookupResult_recordResult hon hid
    rw [hmax, hf, hcut] at hsame hmark
    exact ⟨found, hfound, hsame.trans (congrArg readBack hbody.symm), hmark.trans htruncated.symm⟩
  · exact isPrefix_iff (congrArg readBack hbody) htruncated

/-- A user's job, and the disk it is stored on. -/
def answeredJob : Job := { id := "a", userID := "u", idempotentKey := "k" }

def answeredDisk : Disk := Disk.empty.insert { hashKey := fun s => s } answeredJob 0

/-- A limit of one byte, before the two of an accented letter. -/
theorem stored_body_before_accent :
    ∃ fresh result, answeredJob.localResult .completed 200 [] (utf8Bytes "aé") 1 0 = some fresh ∧
      (answeredDisk.saveResult "a" fresh).getResult "a" 0 = some result ∧
      result.IsPrefix "aé" 1 := by
  obtain ⟨fresh, result, hfresh, hdisk, -, -, hiff⟩ :=
    stored_body_is_beginning answeredJob (by decide) .completed 200 [] "aé" 1 0
  obtain ⟨r, hr, hlive⟩ : ∃ r, answeredDisk.jobs.get "a" = some r ∧ r.live 0 = true := by
    decide +kernel
  exact ⟨fresh, result, hfresh, hdisk answeredDisk r 0 hr hlive,
    hiff.mpr ⟨['a'], ['é'], by decide, by decide⟩⟩

/-- A limit of one byte on the two of an accented letter: the byte is read back as the replacement
character, which is longer than the limit and than the body, and no prefix of it. -/
theorem stored_body_is_no_beginning :
    ∃ fresh, answeredJob.localResult .completed 200 [] (utf8Bytes "é") 1 0 = some fresh ∧
      ((answeredDisk.saveResult "a" fresh).getResult "a" 0).map
        (fun r => (r.body, (utf8Bytes r.body).length, r.bodyTruncated)) = some ("\uFFFD", 3, true) ∧
      (utf8Bytes "é").length = 2 ∧ ¬ "\uFFFD".toList <+: "é".toList := by
  decide +kernel

end Aquifer
