import Aquifer.Dispatch.Routing
import Aquifer.Lib.Assoc
import Aquifer.Lib.Binary64
import Aquifer.Lib.Url

/-! Which worker and which configured rate a job's URL leads to, for the URLs of one target. -/
namespace Aquifer

open Binary64 (Value)

def domainKey (rawURL : String) : String :=
  match Url.parse rawURL.toList with
  | none => rawURL
  | some u => String.ofList (u.scheme ++ "://".toList ++ u.host)

structure RateConfig where
  rps : Value
  maxConcurrent : Int
deriving DecidableEq

structure Config where
  defaults : RateConfig
  upstreams : Assoc String RateConfig := ∅

namespace Config

def forURL (cfg : Config) (rawURL : String) : RateConfig :=
  match Url.parse rawURL.toList with
  | none => cfg.defaults
  | some u => (cfg.upstreams.lookup (String.ofList u.host)).getD cfg.defaults

/-- The rate `resolveWorkerLocked` makes a new worker with. -/
def rateFor (cfg : Config) (j : Job) : RateConfig :=
  if j.poolID ≠ "" then cfg.defaults else cfg.forURL j.url

end Config

/-- `strings.TrimSpace`, of ASCII space. -/
def trimSpace (s : List Char) : List Char :=
  let space (c : Char) : Bool := c ∈ [' ', '\t', '\n', '\r', '\x0B', '\x0C']
  ((s.dropWhile space).reverse.dropWhile space).reverse

/-- `urlpolicy.Allowed`, under the list in `AQUIFER_ALLOWED_URL_DOMAINS`. -/
def urlAllowed (allowlist rawURL : String) : Bool :=
  if allowlist = "" then true
  else
    match Url.parse rawURL.toList with
    | none => false
    | some u =>
      let host := Url.hostname u.host
      ((allowlist.toList.splitOn ',').map trimSpace).any fun allowed =>
        allowed ≠ [] && (host = allowed || ('.' :: allowed).isSuffixOf host)

/-! ### URLs of one target -/

variable {env : Env} {r : Request} {url url' : String} {p q : Url.Parsed}

/-- A request that is admitted names a URL or a pool, not both. -/
theorem Request.poolID_of_validate (h : r.validate env = "") (hurl : r.url ≠ "") :
    r.poolID = "" := by
  obtain ⟨-, -, -, -, -, -, -, -, -, hpool, -⟩ := validate_iff.mp h
  exact hpool hurl

theorem domainKey_of_parse (h : Url.parse url.toList = some p) :
    (domainKey url).toList = p.scheme ++ "://".toList ++ p.host := by
  rw [domainKey, h]
  exact String.toList_ofList

/-- URLs of one scheme have one key exactly if they write the host alike. -/
theorem domainKey_eq_iff (hp : Url.parse url.toList = some p) (hq : Url.parse url'.toList = some q)
    (hscheme : p.scheme = q.scheme) : domainKey url = domainKey url' ↔ p.host = q.host := by
  rw [← String.toList_inj, domainKey_of_parse hp, domainKey_of_parse hq, hscheme,
    List.append_cancel_left_eq]

theorem forURL_of_parse (cfg : Config) (h : Url.parse url.toList = some p) :
    cfg.forURL url = (cfg.upstreams.lookup (String.ofList p.host)).getD cfg.defaults := by
  rw [Config.forURL, h]

/-- Every configuration gives them one rate exactly if they write the host alike. -/
theorem forURL_eq_iff (hp : Url.parse url.toList = some p) (hq : Url.parse url'.toList = some q) :
    (∀ cfg : Config, cfg.forURL url = cfg.forURL url') ↔ p.host = q.host := by
  constructor
  · intro h
    -- a configuration with a rate of its own for the first host
    have hown := h { defaults := ⟨.nan, 0⟩,
                     upstreams := (∅ : Assoc _ _).insert (String.ofList p.host) ⟨.nan, 1⟩ }
    rw [forURL_of_parse _ hp, forURL_of_parse _ hq] at hown
    by_contra hne
    have hmiss : String.ofList q.host ≠ String.ofList p.host :=
      fun heq => hne (String.ofList_injective heq).symm
    rw [AList.lookup_insert, AList.lookup_insert_ne hmiss] at hown
    simp at hown
  · intro h cfg
    rw [forURL_of_parse cfg hp, forURL_of_parse cfg hq, h]

/-- The jobs of two admitted requests with URLs of one target (the scheme, the host's name in any
case and the port, given or not) have one worker, and under every configuration one rate, exactly if
the URLs write the host and its port alike. The scheme may be written in any case. -/
theorem equivalent_urls_share_pace (env : Env) (c : Routing) (hc : c.domainKey = domainKey)
    (a b : Request) (id id' : String) (now now' : Time) (ha : a.validate env = "")
    (hb : b.validate env = "") (hurl : a.url ≠ "") (hurl' : b.url ≠ "") (p q : Url.Parsed)
    (hp : Url.parse a.url.toList = some p) (hq : Url.parse b.url.toList = some q)
    (htarget : p.target = q.target) :
    let job := Job.new env a id now
    let job' := Job.new env b id' now'
    (p.scheme.map Url.lower = p.scheme ∧ p.host <:+: a.url.toList) ∧
    ((c.workerKey job = c.workerKey job' ∧ ∀ cfg : Config, cfg.rateFor job = cfg.rateFor job') ↔
      p.host = q.host) := by
  intro job job'
  have hpool : job.poolID = "" := Request.poolID_of_validate ha hurl
  have hpool' : job'.poolID = "" := Request.poolID_of_validate hb hurl'
  have hscheme : p.scheme = q.scheme := congrArg Prod.fst htarget
  have hworker : ∀ j : Job, j.poolID = "" → c.workerKey j = domainKey j.url := fun j hj => by
    rw [Routing.workerKey, if_neg (by simp [hj]), hc]
  have hrate : ∀ (j : Job) (cfg : Config), j.poolID = "" → cfg.rateFor j = cfg.forURL j.url :=
    fun j cfg hj => if_neg (by simp [hj])
  refine ⟨Url.parse_spec hp, ?_⟩
  simp only [hworker job hpool, hworker job' hpool', hrate job _ hpool, hrate job' _ hpool']
  exact (and_congr (domainKey_eq_iff hp hq hscheme) (forURL_eq_iff hp hq)).trans and_self_iff

/-- Node settings: jobs may go to one domain and its subdomains. -/
def guardedEnv : Env := { hashKey := fun s => s, urlAllowed := urlAllowed "example.com" }

def urlRouting : Routing where
  domainKey := domainKey
  sha256String _ := "0"
  sha256_plain _ := Routing.zero_plain

def urlRequest (url : String) : Request := { userID := "u", idempotentKey := "k", url := url }

def urlJob (url : String) : Job := Job.new guardedEnv (urlRequest url) "a" 0

theorem equivalent_schemes_share_pace :
    urlRouting.workerKey (urlJob "HTTPS://api.example.com/a") =
      urlRouting.workerKey (urlJob "https://api.example.com/b?c=d") := by
  have hshared := equivalent_urls_share_pace guardedEnv urlRouting rfl
    (urlRequest "HTTPS://api.example.com/a") (urlRequest "https://api.example.com/b?c=d")
    "a" "a" 0 0 (by decide +kernel) (by decide +kernel) (by decide) (by decide)
    ⟨"https".toList, "api.example.com".toList⟩ ⟨"https".toList, "api.example.com".toList⟩
    (by decide +kernel) (by decide +kernel) rfl
  exact (hshared.2.mpr rfl).1

/-- One target in three spellings, all admitted: each has a worker of its own, and the two that are
not as the configuration writes the host have the default rate. -/
theorem equivalent_urls_split_pace :
    let spellings := ["https://api.example.com/v1", "https://API.example.com/v1",
      "https://api.example.com:443/v1"]
    let cfg : Config := { defaults := ⟨.ofRat 2, 1⟩,
                          upstreams := (∅ : Assoc _ _).insert "api.example.com" ⟨.ofRat 1, 1⟩ }
    (∀ url ∈ spellings, (urlRequest url).validate guardedEnv = "") ∧
    spellings.map (fun url => (Url.parse url.toList).map Url.Parsed.target) =
      List.replicate 3 (some ("https".toList, "api.example.com".toList, 443)) ∧
    spellings.map (fun url => urlRouting.workerKey (urlJob url)) =
      ["https://api.example.com", "https://API.example.com", "https://api.example.com:443"] ∧
    spellings.map (fun url => (cfg.rateFor (urlJob url)).rps) = [.ofRat 1, .ofRat 2, .ofRat 2] := by
  decide +kernel

end Aquifer
