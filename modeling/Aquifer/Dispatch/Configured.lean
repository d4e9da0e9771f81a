import Aquifer.Dispatch.FloatPace
import Aquifer.Dispatch.Supervise
import Aquifer.Dispatch.Targets

/-! Which rates a configuration file gives, and whether a queue with such a rate dispatches. -/
namespace Aquifer

open Binary64 (Value Finite)

/-- A rate mapping of a file: the fields it sets. -/
structure RateNode where
  rps : Option Value := none
  maxConcurrent : Option Int := none
deriving DecidableEq

/-- What `yaml.Unmarshal` finds in a file. A node that does not decode to its field's type sets
nothing there, and makes the call end in an error once the rest is decoded. -/
structure ConfigDocument where
  defaults : RateNode := {}
  upstreams : Assoc String RateNode := ∅
  typeError : Bool := false

inductive ConfigFile
  | unset
  | unreadable
  | malformed
  | document (d : ConfigDocument)

namespace RateConfig

def zero : Finite where
  val := 0
  rep := ⟨0, 0, by norm_num, by norm_num, by norm_num⟩
  bounded := by norm_num

def positive (v : Value) : Bool := (Value.fin zero).lt v

/-- `RPS <= 0`, which is false of NaN too. -/
def nonPositive (v : Value) : Bool := v ≠ .nan && !positive v

def builtin : RateConfig := ⟨.fin FloatPace.two, 1⟩

def Works (r : RateConfig) : Prop := positive r.rps = true ∧ 0 < r.maxConcurrent

end RateConfig

open RateConfig (positive nonPositive)

/-- Decoding into a rate keeps the fields that the mapping does not set. -/
def RateNode.into (n : RateNode) (r : RateConfig) : RateConfig :=
  ⟨n.rps.getD r.rps, n.maxConcurrent.getD r.maxConcurrent⟩

/-- The entries of a map are decoded into zero values. -/
def ConfigDocument.decode (d : ConfigDocument) : Config where
  defaults := d.defaults.into .builtin
  upstreams := d.upstreams.mapVal fun n => n.into ⟨.fin RateConfig.zero, 0⟩

/-- An error of the decoding returns what is decoded so far, and only the defaults are checked. -/
def loadConfig : ConfigFile → Config
  | .document d =>
    let cfg := d.decode
    if d.typeError then cfg
    else { cfg with
      defaults :=
        { rps := if nonPositive cfg.defaults.rps then .fin FloatPace.two else cfg.defaults.rps
          maxConcurrent :=
            if cfg.defaults.maxConcurrent ≤ 0 then 1 else cfg.defaults.maxConcurrent } }
  | _ => { defaults := .builtin }

/-! ### The files that give a URL a positive rate -/

/-- The entry of the file that a URL's host leads to. -/
def ConfigDocument.entryFor (d : ConfigDocument) (rawURL : String) : Option RateNode :=
  (Url.parse rawURL.toList).bind fun u => d.upstreams.lookup (String.ofList u.host)

/-- Both fields are set, to positive numbers. -/
def RateNode.Complete (n : RateNode) : Prop :=
  (∃ r ∈ n.rps, positive r = true) ∧ ∃ k ∈ n.maxConcurrent, 0 < k

/-- A host's own entry is complete. Without one, the default rate is a number, and if the file does
not decode, the defaults that do are positive. -/
def ConfigFile.Serves (rawURL : String) : ConfigFile → Prop
  | .document d =>
    match d.entryFor rawURL with
    | some n => n.Complete
    | none =>
      if d.typeError then
        (∀ r ∈ d.defaults.rps, positive r = true) ∧ ∀ k ∈ d.defaults.maxConcurrent, 0 < k
      else d.defaults.rps ≠ some .nan
  | _ => True

variable {file : ConfigFile} {d : ConfigDocument} {n : RateNode} {url : String}

theorem works_builtin : RateConfig.builtin.Works := by
  constructor <;> decide

theorem into_zero_works : (n.into ⟨.fin RateConfig.zero, 0⟩).Works ↔ n.Complete := by
  have hzero : positive (.fin RateConfig.zero) = false := by decide
  unfold RateConfig.Works RateNode.into RateNode.Complete
  cases n.rps <;> cases n.maxConcurrent <;> simp [hzero]

theorem into_builtin_works : (n.into .builtin).Works ↔
    (∀ r ∈ n.rps, positive r = true) ∧ ∀ k ∈ n.maxConcurrent, 0 < k := by
  obtain ⟨hrps, hconc⟩ := works_builtin
  unfold RateConfig.Works RateNode.into
  cases n.rps <;> cases n.maxConcurrent <;> simp [hrps, hconc]

/-- The check of the defaults mends every rate but NaN. -/
theorem checked_works (r : RateConfig) :
    RateConfig.Works
      { rps := if nonPositive r.rps then .fin FloatPace.two else r.rps
        maxConcurrent := if r.maxConcurrent ≤ 0 then 1 else r.maxConcurrent } ↔ r.rps ≠ .nan := by
  have htwo : positive (.fin FloatPace.two) = true := by decide
  have hconc : 0 < if r.maxConcurrent ≤ 0 then 1 else r.maxConcurrent := by
    split <;> omega
  have hnan : positive .nan = false := rfl
  unfold RateConfig.Works
  simp only [hconc, and_true]
  by_cases hr : r.rps = .nan
  · simp [hr, nonPositive, hnan]
  · cases hpos : positive r.rps <;> simp [nonPositive, hr, hpos, htwo]

/-- A URL's rate and concurrency are positive exactly if the file serves it. -/
theorem forURL_works_iff : ((loadConfig file).forURL url).Works ↔ file.Serves url := by
  cases file with
  | unset | unreadable | malformed =>
    have hbuiltin : ({ defaults := .builtin } : Config).forURL url = .builtin := by
      unfold Config.forURL
      cases Url.parse url.toList <;> rfl
    simp only [loadConfig, hbuiltin, ConfigFile.Serves, works_builtin]
  | document d =>
    have hforURL : ∀ r, ({ d.decode with defaults := r } : Config).forURL url =
        (d.entryFor url).elim r fun n => n.into ⟨.fin RateConfig.zero, 0⟩ := by
      intro r
      unfold Config.forURL ConfigDocument.entryFor
      cases Url.parse url.toList with
      | none => rfl
      | some u =>
        simp only [Option.bind_some, ConfigDocument.decode, Assoc.lookup_mapVal]
        cases d.upstreams.lookup (String.ofList u.host) <;> rfl
    unfold loadConfig ConfigFile.Serves
    dsimp only
    by_cases herror : d.typeError = true
    · rw [if_pos herror, if_pos herror]
      have hsame := hforURL d.decode.defaults
      change d.decode.forURL url = _ at hsame
      rw [hsame]
      cases d.entryFor url with
      | none => exact into_builtin_works
      | some n => exact into_zero_works
    · rw [if_neg herror, if_neg herror, hforURL]
      cases d.entryFor url with
      | none =>
        refine (checked_works d.decode.defaults).trans (not_congr ?_)
        change d.defaults.rps.getD (.fin FloatPace.two) = .nan ↔ _
        cases d.defaults.rps <;> simp
      | some n => exact into_zero_works

/-! ### The pace of a queue with a positive rate -/

/-- `time.Duration(float64(time.Second) / rps)`. -/
def interval (rps : Value) : Option Int := (Value.quotient 1000000000 rps).toInt64

theorem interval_zero : interval (.fin RateConfig.zero) = none := by
  have hinf : Value.quotient 1000000000 (.fin RateConfig.zero) = .inf false := by
    have hzero : RateConfig.zero.val = 0 := rfl
    rw [Value.quotient, if_pos hzero]
  rw [interval, hinf]
  rfl

namespace FloatPace

variable {configured v : Value} {l : ℚ} {m : Msg} {ms : List Msg} {slowStart : Bool}

theorem update_above (hpos : 0 ≤ l) (hlow : l ≤ minRPS) (hc : configured.Above l) (hv : v.Above l)
    (hm : m.rps ≠ some .nan) : (update configured v m).Above l := by
  have hfloor : (Value.fin floor).Above l := hlow
  unfold update
  split
  · refine Value.Above.max_right ?_ hfloor
    have hhalf : v.scale (1 / 2) ≠ .nan := Value.scale_ne_nan hv.ne_nan
    cases hrps : m.rps with
    | none => exact hhalf
    | some r => exact Value.min_ne_nan hhalf fun hnan => hm (hnan ▸ hrps)
  · cases hrps : m.rps with
    | none =>
      dsimp only
      split
      · exact (hv.scale hpos one_le_creep).min hc
      · exact hv
    | some r =>
      exact Value.Above.max_right (Value.min_ne_nan (fun hnan => hm (hnan ▸ hrps)) hc.ne_nan) hfloor

/-- Whatever the destination answers, short of a rate that is NaN, the pace does not fall below the
smaller of the configured rate and `MinRPS`. -/
theorem rate_above (hpos : 0 ≤ l) (hlow : l ≤ minRPS) (hc : configured.Above l)
    (hms : ∀ m ∈ ms, m.rps ≠ some .nan) : (rate configured slowStart ms).Above l := by
  have hstart : (start configured slowStart).Above l := by
    unfold start
    split
    · exact hlow
    · exact hc
  unfold rate
  generalize start configured slowStart = v at hstart
  induction ms generalizing v with
  | nil => exact hstart
  | cons m ms ih =>
    rw [List.foldl_cons]
    refine ih (fun m hm => hms m (List.mem_cons_of_mem _ hm)) _ ?_
    exact update_above hpos hlow hc hstart (hms m List.mem_cons_self)

theorem interval_floor : interval (.fin floor) = some 2000000000 := by decide +kernel

/-- So the interval of every later pace fits a duration if that of the configured rate does. -/
theorem interval_rate (slowStart : Bool) (hpos : positive configured = true)
    (hfits : (interval configured).isSome) (hms : ∀ m ∈ ms, m.rps ≠ some .nan) :
    ∃ n, interval (rate configured slowStart ms) = some n := by
  have hk : (0 : ℚ) ≤ 1000000000 := by norm_num
  have hfloor : 0 < floor.val := Pace.minRPS_pos
  cases configured with
  | nan => cases hpos
  | inf negative =>
    have habove : (Value.inf negative).Above minRPS := by
      cases negative
      · rfl
      · cases hpos
    obtain ⟨n, hn, -⟩ := Value.toInt64_quotient hk hfloor interval_floor
      (rate_above hfloor.le le_rfl habove hms)
    exact ⟨n, hn⟩
  | fin c =>
    have hc : 0 < c.val := of_decide_eq_true hpos
    rcases le_total c.val minRPS with hle | hle
    · obtain ⟨d, hd⟩ := Option.isSome_iff_exists.mp hfits
      have hself : (Value.fin c).Above c.val := le_refl c.val
      obtain ⟨n, hn, -⟩ := Value.toInt64_quotient hk hc hd (rate_above hc.le hle hself hms)
      exact ⟨n, hn⟩
    · have habove : (Value.fin c).Above minRPS := hle
      obtain ⟨n, hn, -⟩ := Value.toInt64_quotient hk hfloor interval_floor
        (rate_above hfloor.le le_rfl habove hms)
      exact ⟨n, hn⟩

end FloatPace

/-! ### The queue's turn -/

namespace AccountQueue

variable {c : QueueConfig} {q t : AccountQueue} {e : Event}

/-- The loop at the head of its queue: how long ago its last request was, and how long the target's
shared pace makes it wait. -/
def turn (c : QueueConfig) (q : AccountQueue) (rps : Value) (elapsed wait : Int) (now : Time) :
    Option AccountQueue :=
  (interval rps).bind fun d =>
    if elapsed < d ∨ 0 < wait then none else q.step c (.dispatch now)

/-- A response can lower the limit, but not below one. -/
theorem maxConc_pos_step (hc : 0 < c.configuredMaxConc) (h : 0 < q.maxConc)
    (hstep : q.step c e = some t) : 0 < t.maxConc := by
  cases moved_of_step hstep with
  | kept _ _ _ hlimit => rcases hlimit with heq | heq <;> omega
  | started _ _ _ _ hlimit => omega
  | ended _ _ _ _ hlimit =>
    rcases hlimit with heq | ⟨n, -, hn, heq⟩
    · omega
    · rw [heq]
      exact lt_min hn hc
  | panicked _ _ _ hlimit => omega

theorem turn_starts {rps : Value} {d elapsed wait : Int} {now : Time} {job : Job} {rest : List Job}
    (hd : interval rps = some d) (helapsed : d ≤ elapsed) (hwait : wait ≤ 0)
    (halive : q.alive = true) (hsweep : q.sweep = none) (hfree : q.inFlight < q.maxConc)
    (hq : q.queue = job :: rest) (hlive : job.queueExpired now = false) :
    ∃ t, q.turn c rps elapsed wait now = some t ∧ t.queue = rest ∧
      t.running = q.running ++ [{ job := job }] := by
  have hstart : ∃ t, q.dispatch now = some t ∧ t.queue = rest ∧
      t.running = q.running ++ [{ job := job }] := by
    unfold dispatch
    rw [hq]
    dsimp only
    rw [if_pos ⟨hfree, hlive⟩]
    exact ⟨_, rfl, rfl, rfl⟩
  obtain ⟨t, ht, hqueue, hrunning⟩ := hstart
  refine ⟨t, ?_, hqueue, hrunning⟩
  rw [turn, hd, Option.bind_some, if_neg (by omega)]
  simp only [step, stepOutside, Option.none_or, if_pos halive, hsweep, stepLoop, ht]

/-- A queue that is configured for no attempt at all counts none, whatever happens. -/
theorem limited_of_nonpos (hc : c.configuredMaxConc ≤ 0) {es : List Event}
    (h : Limited c q) (hrun : Trace.exec (step c) q es = some t) : Limited c t := by
  refine Trace.exec_always (fun {u v e} hu hstep => limited_step hu ?_ hstep) h hrun
  obtain ⟨hall, hmax, -⟩ := hu
  have hnone : u.attempts = 0 := by omega
  cases e <;> try rfl
  simp only [attempts, Nat.add_eq_zero_iff, List.length_eq_zero_iff] at hnone
  simp [quietPanic, inFlightJobs, hnone]

theorem running_eq_nil_of_nonpos (hc : c.configuredMaxConc ≤ 0) (h : Limited c q) :
    q.running = [] := by
  obtain ⟨hall, hmax, -⟩ := h
  have hnone : q.running.length = 0 := by
    unfold attempts at hall
    omega
  exact List.length_eq_zero_iff.mp hnone

end AccountQueue

/-- If the file serves a URL and the interval of its rate fits a duration, then both numbers are
positive, the pace of the queue has a finite interval whatever rates the target advertises, NaN
apart, and in every reachable state with nothing in flight the loop's turn after that interval
starts the job at the head. -/
theorem served_url_dispatches (file : ConfigFile) (url : String) (hserves : file.Serves url)
    (hfits : (interval ((loadConfig file).forURL url).rps).isSome) :
    positive ((loadConfig file).forURL url).rps = true ∧
    0 < ((loadConfig file).forURL url).maxConcurrent ∧
    ∀ slowStart ms, (∀ m ∈ ms, m.rps ≠ some .nan) →
      ∃ d, interval (FloatPace.rate ((loadConfig file).forURL url).rps slowStart ms) = some d ∧
        ∀ (c : QueueConfig) (store : Store) (es : List Event) (q : AccountQueue),
          c.configuredMaxConc = ((loadConfig file).forURL url).maxConcurrent →
          Trace.exec (AccountQueue.step c) (.new c store) es = some q →
          q.alive = true → q.sweep = none → q.inFlight = 0 →
          ∀ job rest now elapsed wait, q.queue = job :: rest → job.queueExpired now = false →
            d ≤ elapsed → wait ≤ 0 →
            ∃ t, q.turn c (FloatPace.rate ((loadConfig file).forURL url).rps slowStart ms) elapsed
                wait now = some t ∧
              t.queue = rest ∧ t.running = q.running ++ [{ job := job }] := by
  obtain ⟨hrps, hconc⟩ := forURL_works_iff.mpr hserves
  refine ⟨hrps, hconc, fun slowStart ms hms => ?_⟩
  obtain ⟨d, hd⟩ := FloatPace.interval_rate slowStart hrps hfits hms
  refine ⟨d, hd, fun c store es q hc hrun halive hsweep hidle => ?_⟩
  intro job rest now elapsed wait hq hlive helapsed hwait
  rw [← hc] at hconc
  have hlimit : 0 < q.maxConc :=
    Trace.exec_always (AccountQueue.maxConc_pos_step hconc) hconc hrun
  exact AccountQueue.turn_starts hd helapsed hwait halive hsweep (hidle ▸ hlimit) hq hlive

/-- A file with one entry, for the host of the URLs below. -/
def oneEntry (n : RateNode) : ConfigFile :=
  .document { upstreams := (∅ : Assoc String RateNode).insert "api.example.com" n }

def exampleURL : String := "https://api.example.com/run"

theorem forURL_oneEntry (n : RateNode) :
    (loadConfig (oneEntry n)).forURL exampleURL = n.into ⟨.fin RateConfig.zero, 0⟩ := by
  have hparse : (Url.parse exampleURL.toList).map (String.ofList ·.host) =
    some "api.example.com" := by
    decide +kernel
  unfold Config.forURL
  cases hu : Url.parse exampleURL.toList with
  | none => simp [hu] at hparse
  | some u =>
    have hhost : String.ofList u.host = "api.example.com" := by simpa [hu] using hparse
    dsimp only
    rw [hhost]
    rfl

open AccountQueue (smallConfig smallJob)

def oneHandOff : List Event :=
  [.reserve (smallJob 1), .setKey (smallJob 1), .send (smallJob 1), .recvCmd 0 0]

/-- Two attempts at two requests a second: half a second after its last request the queue starts the
job. -/
theorem complete_entry_dispatches :
    ∃ q t, Trace.exec (AccountQueue.step smallConfig) (.new smallConfig Table.empty) oneHandOff =
        some q ∧
      q.turn smallConfig (.fin FloatPace.two) 500000000 0 0 = some t ∧ t.queue = [] := by
  have hrun : ∀ q ∈ Trace.exec (AccountQueue.step smallConfig) (.new smallConfig Table.empty)
      oneHandOff, q.alive = true ∧ q.sweep = none ∧ q.inFlight = 0 ∧ q.queue = [smallJob 1] := by
    decide +kernel
  obtain ⟨q, hq⟩ : ∃ q, Trace.exec (AccountQueue.step smallConfig) (.new smallConfig Table.empty)
      oneHandOff = some q := ⟨_, rfl⟩
  obtain ⟨halive, hsweep, hidle, hqueue⟩ := hrun q hq
  let entry : RateNode := { rps := some (.fin FloatPace.two), maxConcurrent := some 2 }
  have hforURL := forURL_oneEntry entry
  have hcomplete : entry.Complete := ⟨⟨_, rfl, by decide⟩, 2, rfl, by decide⟩
  have hserves : (oneEntry entry).Serves exampleURL := by
    rw [← forURL_works_iff, hforURL]
    exact into_zero_works.mpr hcomplete
  have hinterval : interval (.fin FloatPace.two) = some 500000000 := by decide +kernel
  obtain ⟨-, -, hpace⟩ := served_url_dispatches (oneEntry entry) exampleURL hserves
    (by rw [hforURL]; exact hinterval ▸ rfl)
  rw [hforURL] at hpace
  obtain ⟨d, hd, hstart⟩ := hpace false [] (by simp)
  obtain rfl : d = 500000000 := Option.some.inj (hd.symm.trans hinterval)
  obtain ⟨t, ht, hnext, -⟩ := hstart smallConfig Table.empty oneHandOff q rfl hq halive hsweep hidle
    (smallJob 1) [] 0 500000000 0 hqueue (by decide) le_rfl le_rfl
  exact ⟨q, t, hq, ht, hnext⟩

/-- An entry that sets only the rate allows no attempt: an accepted job stays in the queue, whatever
happens. The rate of an entry that sets only the concurrency is 0, whose interval is
no duration. -/
theorem incomplete_entry_never_dispatches :
    (loadConfig (oneEntry { rps := some (.fin FloatPace.two) })).forURL exampleURL =
      ⟨.fin FloatPace.two, 0⟩ ∧
    (∃ q, Trace.exec (AccountQueue.step { smallConfig with configuredMaxConc := 0 })
        (.new { smallConfig with configuredMaxConc := 0 } Table.empty) oneHandOff = some q ∧
      q.queue = [smallJob 1] ∧
      ∀ es t, Trace.exec (AccountQueue.step { smallConfig with configuredMaxConc := 0 }) q es =
        some t → t.running = []) ∧
    interval ((loadConfig (oneEntry { maxConcurrent := some 1 })).forURL exampleURL).rps =
      none := by
  refine ⟨forURL_oneEntry _, ?_, ?_⟩
  · let c : QueueConfig := { smallConfig with configuredMaxConc := 0 }
    have hrun : ∀ q ∈ Trace.exec (AccountQueue.step c) (.new c Table.empty) oneHandOff,
        q.queue = [smallJob 1] := by
      decide +kernel
    obtain ⟨q, hq⟩ : ∃ q, Trace.exec (AccountQueue.step c) (.new c Table.empty) oneHandOff =
        some q := ⟨_, rfl⟩
    have hc : c.configuredMaxConc ≤ 0 := le_rfl
    have hlimited := AccountQueue.limited_of_nonpos hc (AccountQueue.limited_new Table.empty) hq
    refine ⟨q, hq, hrun q hq, fun es t ht => ?_⟩
    exact AccountQueue.running_eq_nil_of_nonpos hc (AccountQueue.limited_of_nonpos hc hlimited ht)
  · rw [forURL_oneEntry]
    exact interval_zero

end Aquifer
