import Aquifer.Storage
import Aquifer.Lib.Texts

/-! Which queue a job is handed to: its worker, the worker's mode and the key it is stored under. -/
namespace Aquifer

def sharedQueueKey : String := "__shared__"

/-- What routing takes from outside: the scheme and host of a URL, the hex SHA-256 of a text and
the node owner's `AQUIFER_ACCOUNT_QUEUE`. A hex digest has no bar and is not the shared key. -/
structure Routing where
  domainKey : String → String
  sha256String : String → String
  sha256_plain : ∀ s, '|' ∉ (sha256String s).toList ∧ sha256String s ≠ sharedQueueKey
  accountQueueDefault : Bool := true

theorem Routing.zero_plain : '|' ∉ "0".toList ∧ "0" ≠ sharedQueueKey := by decide

def Job.header (j : Job) (name : String) : String := (j.headers.lookup name).getD ""

/-- The sender's API key, from the first of three headers that is not empty. -/
def Job.apiKey (j : Job) : String :=
  if j.header "Authorization" ≠ "" then j.header "Authorization"
  else if j.header "x-api-key" ≠ "" then j.header "x-api-key"
  else j.header "api-key"

def storeQueueKey (upstream queueKey : String) : String := upstream ++ "|" ++ queueKey

namespace Routing

variable {c : Routing} {modes : String → Bool} {m m' : Bool} {j j' : Job} {r : Row}

def jobQueueKey (c : Routing) (j : Job) : String :=
  c.sha256String (j.userID ++ ":" ++ j.apiKey)

/-- The registry's key of a job's URL worker, as `resolveWorkerLocked` computes it. -/
def workerKey (c : Routing) (j : Job) : String :=
  if j.poolID ≠ "" then "pool:" ++ j.poolID else c.domainKey j.url

/-- `queueKeyLocked` of a worker that has one queue per tenant or one shared queue. -/
def queueKeyLocked (c : Routing) (accountQueueMode : Bool) (j : Job) : String :=
  if accountQueueMode then c.jobQueueKey j else sharedQueueKey

def storeKeyIn (c : Routing) (accountQueueMode : Bool) (j : Job) : String :=
  storeQueueKey (c.workerKey j) (c.queueKeyLocked accountQueueMode j)

/-- `StoreKeyFor`: the key the job would be stored under if it were handed over now. -/
def storeKeyFor (c : Routing) (modes : String → Bool) (j : Job) : String :=
  c.storeKeyIn (modes (c.workerKey j)) j

@[simp] theorem storeKeyFor_asQueued : c.storeKeyFor modes j.asQueued = c.storeKeyFor modes j := rfl

theorem bar_mem_storeKeyFor : '|' ∈ (c.storeKeyFor modes j).toList := by
  simp [storeKeyFor, storeKeyIn, storeQueueKey]

theorem bar_notMem_queueKeyLocked : '|' ∉ (c.queueKeyLocked m j).toList := by
  unfold queueKeyLocked
  split
  · exact (c.sha256_plain _).1
  · decide

theorem queueKeyLocked_mode (h : c.queueKeyLocked m j = c.queueKeyLocked m' j') : m = m' := by
  cases m <;> cases m' <;> simp only [queueKeyLocked, Bool.false_eq_true, if_true, if_false] at h
  · rfl
  · exact absurd h.symm (c.sha256_plain _).2
  · exact absurd h (c.sha256_plain _).2
  · rfl

/-- A store key splits at its last bar. -/
theorem storeQueueKey_inj {d d' k k' : String} (hk : '|' ∉ k.toList) (hk' : '|' ∉ k'.toList)
    (h : storeQueueKey d k = storeQueueKey d' k') : d = d' ∧ k = k' := by
  have hl : k.toList.reverse ++ '|' :: d.toList.reverse =
      k'.toList.reverse ++ '|' :: d'.toList.reverse := by
    simpa [storeQueueKey] using congrArg (fun s => s.toList.reverse) h
  obtain ⟨hq, hd⟩ := Texts.split_inj (by simpa using hk) (by simpa using hk') hl
  exact ⟨String.toList_inj.mp (List.reverse_injective hd),
    String.toList_inj.mp (List.reverse_injective hq)⟩

theorem storeKeyIn_inj (h : c.storeKeyIn m j = c.storeKeyIn m' j') :
    c.workerKey j = c.workerKey j' ∧ m = m' := by
  obtain ⟨hw, hq⟩ := storeQueueKey_inj bar_notMem_queueKeyLocked bar_notMem_queueKeyLocked h
  exact ⟨hw, queueKeyLocked_mode hq⟩

end Routing

/-- A key with a bar is one that a hand-off of this very job has written, in either mode. -/
def Row.Keyed (c : Routing) (r : Row) : Prop :=
  '|' ∈ r.queueKey.toList → ∃ m, r.queueKey = c.storeKeyIn m r.job

/-- The row lies under the key of the queue its job routes to now. -/
def Row.Routes (c : Routing) (modes : String → Bool) (r : Row) : Prop :=
  c.storeKeyFor modes r.job = r.queueKey

/-- Rows under one key route alike: if any job routes to it, all the rows under it do. -/
theorem Row.Keyed.routes {c : Routing} {modes : String → Bool} {r : Row} {j : Job}
    (hr : r.Keyed c) (hj : c.storeKeyFor modes j = r.queueKey) : r.Routes c modes := by
  have hbar : '|' ∈ r.queueKey.toList := hj ▸ Routing.bar_mem_storeKeyFor
  obtain ⟨m, hm⟩ := hr hbar
  obtain ⟨hw, hmode⟩ := Routing.storeKeyIn_inj (hj.trans hm)
  rw [Row.Routes, Routing.storeKeyFor, ← hw, hmode, ← hm]

theorem Row.Routes.keyed {c : Routing} {modes : String → Bool} {r : Row} (h : r.Routes c modes) :
    r.Keyed c :=
  fun _ => ⟨_, h.symm⟩

end Aquifer
