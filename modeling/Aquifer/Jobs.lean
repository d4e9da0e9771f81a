import Mathlib.Data.Prod.Lex
import Mathlib.Data.String.Basic
import Mathlib.Tactic.Common

/-! Jobs, the requests that create them, their deadlines and their place in a queue's disk order. -/
namespace Aquifer

/-- A clock reading in nanoseconds since the Unix epoch. -/
abbrev Time := Int

/-- `time.Time.UnixMilli`, which rounds down. -/
def unixMilli (t : Time) : Int := t / 1000000

/-- `time.UnixMilli`. -/
def ofMilli (ms : Int) : Time := ms * 1000000

/-- The value an `int64` holds after a sum that may have overflowed. -/
def int64 (n : Int) : Int := Int.bmod n 18446744073709551616

theorem int64_of_range {n : Int} (hlow : -9223372036854775808 ≤ n)
    (hhigh : n < 9223372036854775808) : int64 n = n :=
  Int.bmod_eq_of_le (by omega) (by omega)

/-- What overflows loses at least one turn of the counter. -/
theorem int64_le_of_over {n : Int} (h : 9223372036854775808 ≤ n) :
    int64 n ≤ n - 18446744073709551616 := by
  rw [int64, Int.bmod]
  split <;> omega

theorem le_int64 (n : Int) : -9223372036854775808 ≤ int64 n := Int.le_bmod (by decide)

/-- `QueuedTTL` and `PendingRowGrace`, in milliseconds. -/
def queuedTTL : Int := 86400000
def pendingRowGrace : Int := 900000

inductive Status
  | queued
  | inFlight
  | completed
  | failed
deriving DecidableEq, Repr

/-- `pendingStatus`: unfinished work, also under the status older versions wrote. -/
def Status.pending : Status → Bool
  | .queued | .inFlight => true
  | .completed | .failed => false

/-- `Job.Kind`; `unset` is the empty kind of records written before the field existed. -/
inductive Kind
  | unset
  | user
  | webhookDelivery
deriving DecidableEq, Repr

structure Job where
  id : String
  userID : String := ""
  idempotentKey : String := ""
  url : String := ""
  poolID : String := ""
  method : String := "GET"
  headers : List (String × String) := []
  body : String := ""
  webhookURL : String := ""
  kind : Kind := .user
  status : Status := .queued
  createdAt : Int := 0
  executeBefore : Int := 0
  idempotencyScope : String := ""
  maxRetries : Int := 4
  attempts : Int := 0
  webhookMaxRetries : Option Int := none
  dedupHash : String := ""
  originMachineID : String := ""
deriving DecidableEq, Repr

structure Request where
  userID : String
  idempotentKey : String
  url : String := ""
  poolID : String := ""
  method : String := "GET"
  headers : List (String × String) := []
  body : String := ""
  webhookURL : String := ""
  executeBefore : Int := 0
  idempotencyScope : String := ""
  maxRetries : Option Int := none
  webhookMaxRetries : Option Int := none
  originMachineID : String := ""
  directOnly : Bool := false
  accountQueueMode : String := ""
deriving DecidableEq, Repr

/-- What the standard library and the process environment supply. -/
structure Env where
  hashKey : String → String
  sharedIdempotencyEnabled : Bool := false
  urlAllowed : String → Bool := fun _ => true

def defaultMaxRetries : Int := 4
def retryUntilComplete : Int := -1
def maxAllowedRetries : Int := 100
def defaultWebhookMaxRetries : Int := 10

def validRetryLimit : Option Int → Bool
  | none => true
  | some n => retryUntilComplete ≤ n && n ≤ maxAllowedRetries

/-- `Request.Validate`; the empty text is acceptance. -/
def Request.validate (env : Env) (r : Request) : String :=
  if r.executeBefore < 0 then
    "execute_before must be a positive Unix timestamp in milliseconds"
  else if r.userID = "" then "user_id is required"
  else if '\x00' ∈ r.userID.toList then "user_id must not contain NUL characters"
  else if r.idempotentKey = "" then "idempotent_key is required"
  else if !validRetryLimit r.maxRetries then
    "max_retries must be -1 (retry until complete) or between 0 and 100"
  else if !validRetryLimit r.webhookMaxRetries then
    "webhook_max_retries must be -1 (retry until delivered) or between 0 and 100"
  else if r.idempotencyScope ≠ "" ∧ r.idempotencyScope ≠ "user" ∧
      r.idempotencyScope ≠ "shared" then
    "idempotency_scope must be \"user\" or \"shared\""
  else if r.idempotencyScope = "shared" ∧ !env.sharedIdempotencyEnabled then
    "idempotency_scope \"shared\" requires AQUIFER_SHARED_IDEMPOTENCY_ENABLED=true"
  else if r.url = "" ∧ r.poolID = "" then "either url or pool_id is required"
  else if r.url ≠ "" ∧ r.poolID ≠ "" then
    "url and pool_id are mutually exclusive — a job dispatches to one or the other"
  else if r.method = "" then "method is required"
  else if r.url ≠ "" ∧ !env.urlAllowed r.url then
    "url domain is not in the configured allowlist (AQUIFER_ALLOWED_URL_DOMAINS)"
  else ""

theorem passes_iff {refused : Prop} [Decidable refused] {text rest : String} (htext : text ≠ "") :
    (if refused then text else rest) = "" ↔ ¬ refused ∧ rest = "" := by
  split_ifs with hrefused
  · exact iff_of_false htext fun h => h.1 hrefused
  · exact ⟨fun h => ⟨hrefused, h⟩, And.right⟩

theorem Request.validate_iff {env : Env} {r : Request} : r.validate env = "" ↔
    0 ≤ r.executeBefore ∧ r.userID ≠ "" ∧ '\x00' ∉ r.userID.toList ∧ r.idempotentKey ≠ "" ∧
    validRetryLimit r.maxRetries = true ∧ validRetryLimit r.webhookMaxRetries = true ∧
    (r.idempotencyScope = "" ∨ r.idempotencyScope = "user" ∨ r.idempotencyScope = "shared") ∧
    (r.idempotencyScope = "shared" → env.sharedIdempotencyEnabled = true) ∧
    (r.url = "" → r.poolID ≠ "") ∧ (r.url ≠ "" → r.poolID = "") ∧ r.method ≠ "" ∧
    (r.url ≠ "" → env.urlAllowed r.url = true) := by
  unfold validate
  repeat rw [passes_iff (by decide)]
  simp only [not_lt, not_and, Bool.not_eq_true', Bool.not_eq_false, ne_eq, not_not, and_true,
    or_iff_not_imp_left]

/-- `DedupHash`: the one place an idempotency identity is derived. -/
def dedupHash (env : Env) (userID idempotentKey scope : String) : String :=
  if scope = "shared" then env.hashKey ("shared\x00" ++ idempotentKey)
  else env.hashKey (userID ++ ":" ++ idempotentKey)

def Request.hash (env : Env) (req : Request) : String :=
  dedupHash env req.userID req.idempotentKey req.idempotencyScope

namespace Job

def idempotencyHash (env : Env) (j : Job) : String :=
  if j.dedupHash ≠ "" then j.dedupHash
  else Aquifer.dedupHash env j.userID j.idempotentKey j.idempotencyScope

/-- `New`, given the random id and the clock reading it draws. -/
def new (env : Env) (r : Request) (id : String) (now : Time) : Job where
  id := id
  userID := r.userID
  idempotentKey := r.idempotentKey
  idempotencyScope := r.idempotencyScope
  maxRetries := r.maxRetries.getD defaultMaxRetries
  webhookMaxRetries := r.webhookMaxRetries
  dedupHash := Aquifer.dedupHash env r.userID r.idempotentKey r.idempotencyScope
  url := r.url
  poolID := r.poolID
  method := r.method.toUpper
  headers := r.headers
  body := r.body
  webhookURL := r.webhookURL
  kind := .user
  status := .queued
  createdAt := unixMilli now
  executeBefore := r.executeBefore
  originMachineID := r.originMachineID

def webhookRetryLimit (j : Job) : Int :=
  j.webhookMaxRetries.getD defaultWebhookMaxRetries

def isWebhookDelivery (j : Job) : Bool :=
  match j.kind with
  | .unset => j.webhookURL = ""
  | .user => false
  | .webhookDelivery => true

/-- `RetryDeadline`: when a job stops being retried. -/
def retryDeadline (j : Job) : Time :=
  if 0 < j.executeBefore then ofMilli j.executeBefore
  else ofMilli (j.createdAt + queuedTTL)

def hasRetriesLeft (j : Job) : Bool :=
  j.maxRetries = retryUntilComplete || j.attempts < j.maxRetries

def executionExpired (j : Job) (now : Time) : Bool :=
  0 < j.executeBefore && j.executeBefore ≤ unixMilli now

/-- `QueueDeadline`: when a still-queued job gives up, 0 when that is not known. -/
def queueDeadline (j : Job) : Int :=
  if 0 < j.executeBefore then j.executeBefore
  else if 0 < j.createdAt then int64 (j.createdAt + queuedTTL)
  else 0

def queueExpired (j : Job) (now : Time) : Bool :=
  0 < j.queueDeadline && j.queueDeadline ≤ unixMilli now

/-- `PendingExpiresAt`: when a pending row may be deleted. The last sum is an `int64` one. -/
def pendingExpiresAt (j : Job) (now : Time) : Int :=
  int64 (max (unixMilli now + queuedTTL) j.queueDeadline + pendingRowGrace)

end Job

/-- A position in one queue's pending jobs, read in `(CreatedAt, ID)` order. -/
structure PageCursor where
  createdAt : Int := 0
  id : String := ""
deriving DecidableEq, Repr

/-- The place of a cursor, and of the job it stands at, in that order. -/
def PageCursor.pos (c : PageCursor) : Int ×ₗ String := toLex (c.createdAt, c.id)

def cursorAt (j : Job) : PageCursor := ⟨j.createdAt, j.id⟩

def Job.pos (j : Job) : Int ×ₗ String := (cursorAt j).pos

/-- `Covers`: a page read after the cursor does not return the job. -/
def PageCursor.covers (c : PageCursor) (j : Job) : Bool :=
  j.createdAt < c.createdAt || (j.createdAt = c.createdAt && j.id ≤ c.id)

theorem PageCursor.covers_iff (c : PageCursor) (j : Job) : c.covers j = true ↔ j.pos ≤ c.pos := by
  simp [covers, Job.pos, pos, cursorAt, Prod.Lex.toLex_le_toLex]

theorem PageCursor.not_covers_iff (c : PageCursor) (j : Job) :
    c.covers j = false ↔ c.pos < j.pos := by
  rw [← not_le, ← covers_iff, Bool.not_eq_true]

theorem pos_injective {i j : Job} (h : i.pos = j.pos) : i.id = j.id := by
  have := congrArg (fun p => (ofLex p).2) h
  simpa [Job.pos, PageCursor.pos, cursorAt] using this

/-- The hash a job is stored under is that of its request, kept in the job or derived again. -/
@[simp] theorem Job.idempotencyHash_new (env : Env) (r : Request) (id : String) (now : Time) :
    (Job.new env r id now).idempotencyHash env = r.hash env := by
  rw [idempotencyHash]
  exact ite_id _

theorem Job.hasRetriesLeft_iff (j : Job) :
    j.hasRetriesLeft = true ↔ j.maxRetries = -1 ∨ j.attempts < j.maxRetries := by
  rw [hasRetriesLeft, Bool.or_eq_true, decide_eq_true_iff, decide_eq_true_iff]
  rfl

theorem Job.queueExpired_eq_false_iff (j : Job) (now : Time) :
    j.queueExpired now = false ↔ j.queueDeadline ≤ 0 ∨ unixMilli now < j.queueDeadline := by
  simp [queueExpired, Classical.or_iff_not_imp_left]

end Aquifer
