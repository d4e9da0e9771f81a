import Mathlib.Data.Rat.Defs
import Mathlib.Algebra.Order.Field.Rat
import Mathlib.Tactic.Linarith
import Mathlib.Tactic.FieldSimp
import Aquifer.Lib.Assoc
import Aquifer.Lib.Spacing

/-! One target's dispatch slots, shared by all of its account queues. Times are in seconds. -/
namespace Aquifer

def minRPS : ℚ := 1 / 2

/-- When a queue that was turned away first asked, and when it last asked. -/
structure Waiter where
  since : ℚ
  asked : ℚ
deriving DecidableEq, Repr

def Waiter.fresh (gap now : ℚ) (w : Waiter) : Bool := now - w.asked ≤ gap

/-- `last` is when the most recent slot started; it means nothing before the first grant. -/
structure SharedPace (Who : Type) where
  last : ℚ := 0
  granted : Bool := false
  waiting : Assoc Who Waiter := ∅

namespace SharedPace

variable {Who : Type} {s : SharedPace Who} {r now : ℚ} {who : Who}

/-- The time between slots at the rate `r`, which never falls below `MinRPS`. -/
def interval (r : ℚ) : ℚ := 1 / max r minRPS

/-- A queue that has not asked for longer than this is forgotten. -/
def stale (r : ℚ) : ℚ := 2 * interval r + 1 / 10

def prune (s : SharedPace Who) (r now : ℚ) : SharedPace Who :=
  { s with waiting := s.waiting.keep fun _ => Waiter.fresh (stale r) now }

def early (s : SharedPace Who) (r now : ℚ) : Bool := s.granted && now < s.last + interval r

theorem interval_pos (r : ℚ) : 0 < interval r := by
  have : 0 < max r minRPS := lt_max_of_lt_right (by norm_num [minRPS])
  exact one_div_pos.mpr this

/-- Where the slot taken at `now` starts: at most one interval of unused time is carried. -/
def slotStart (s : SharedPace Who) (r now : ℚ) : ℚ :=
  if s.granted ∧ now - interval r < s.last + interval r then s.last + interval r
  else now - interval r

theorem sub_interval_le_slotStart : now - interval r ≤ s.slotStart r now := by
  unfold slotStart
  split
  · rename_i h
    exact h.2.le
  · exact le_rfl

theorem slotStart_le (hfree : s.early r now = false) : s.slotStart r now ≤ now := by
  unfold slotStart
  split
  · rename_i h
    simpa [early, h.1] using hfree
  · exact (sub_lt_self now (interval_pos r)).le

theorem last_add_le_slotStart (hg : s.granted = true) :
    s.last + interval r ≤ s.slotStart r now := by
  unfold slotStart
  split
  · exact le_rfl
  · rename_i h
    simpa [hg] using h

variable [DecidableEq Who]

/-- A queue other than `who` has waited longer, or waits while `who` does not. -/
def behind (s : SharedPace Who) (who : Who) : Bool :=
  s.waiting.entries.any fun e =>
    e.1 ≠ who && ((s.waiting.lookup who).map Waiter.since).all (e.2.since < ·)

/-- The closure `wait`: how long to wait, with the ask noted. -/
def wait (s : SharedPace Who) (r : ℚ) (who : Who) (now : ℚ) : ℚ × SharedPace Who :=
  let since := ((s.waiting.lookup who).map Waiter.since).getD now
  (if s.early r now then s.last + interval r - now else min (interval r) (1 / 200),
    { s with waiting := s.waiting.insert who ⟨since, now⟩ })

def take (s : SharedPace Who) (r : ℚ) (who : Who) (now : ℚ) : SharedPace Who where
  last := s.slotStart r now
  granted := true
  waiting := s.waiting.erase who

/-- `reserve`, given the rate it reads. The answer is 0 when the slot is taken, otherwise how
long to wait before asking again. -/
def reserve (s : SharedPace Who) (r : ℚ) (who : Who) (now : ℚ) : ℚ × SharedPace Who :=
  if r ≤ 0 then (0, s)
  else if (s.prune r now).early r now || (s.prune r now).behind who then
    (s.prune r now).wait r who now
  else (0, (s.prune r now).take r who now)

theorem wait_pos (s : SharedPace Who) (r : ℚ) (who : Who) (now : ℚ) : 0 < (s.wait r who now).1 := by
  unfold wait
  split
  · rename_i h
    simp only [early, Bool.and_eq_true, decide_eq_true_iff] at h
    exact sub_pos.mpr h.2
  · exact lt_min (interval_pos r) (by norm_num)

structure Call (Who : Type) where
  who : Who
  now : ℚ
deriving DecidableEq

/-- A call and how it was answered: with the start of the slot it took, if it took one. -/
structure Answer (Who : Type) where
  who : Who
  now : ℚ
  slot : Option ℚ
deriving DecidableEq

structure Grant (Who : Type) where
  who : Who
  now : ℚ
  start : ℚ
deriving DecidableEq

def answer (s : SharedPace Who) (r : ℚ) (c : Call Who) : Answer Who where
  who := c.who
  now := c.now
  slot := if (s.reserve r c.who c.now).1 = 0 then some (s.reserve r c.who c.now).2.last else none

def next (s : SharedPace Who) (r : ℚ) (c : Call Who) : SharedPace Who :=
  (s.reserve r c.who c.now).2

/-- How a call at a positive rate ends: it is turned away and noted as waiting, or it takes the
slot. -/
inductive Answered (s : SharedPace Who) (r : ℚ) (c : Call Who) : Option ℚ → SharedPace Who → Prop
  | refused : Answered s r c none ((s.prune r c.now).wait r c.who c.now).2
  | taken (hfree : s.early r c.now = false) (hturn : (s.prune r c.now).behind c.who = false) :
      Answered s r c (some (s.slotStart r c.now)) ((s.prune r c.now).take r c.who c.now)

theorem answered (hr : 0 < r) (s : SharedPace Who) (c : Call Who) :
    Answered s r c (s.answer r c).slot (s.next r c) := by
  simp only [answer, next, reserve, if_neg hr.not_ge]
  split
  · rw [if_neg (wait_pos _ r c.who c.now).ne']
    exact .refused
  · rename_i h
    rw [Bool.or_eq_true, not_or, Bool.not_eq_true, Bool.not_eq_true] at h
    rw [if_pos rfl]
    exact .taken h.1 h.2

def serve (r : ℚ) (s : SharedPace Who) (calls : List (Call Who)) : SharedPace Who :=
  calls.foldl (fun s c => s.next r c) s

def answers (r : ℚ) : SharedPace Who → List (Call Who) → List (Answer Who)
  | _, [] => []
  | s, c :: cs => s.answer r c :: answers r (s.next r c) cs

def Answer.grant (a : Answer Who) : Option (Grant Who) := a.slot.map (Grant.mk a.who a.now)

def grants (r : ℚ) (s : SharedPace Who) (calls : List (Call Who)) : List (Grant Who) :=
  (answers r s calls).filterMap Answer.grant

/-! ### The ceiling -/

/-- Each slot starts within one interval before its call, and one interval after the slot
before it. -/
structure Paced (r : ℚ) (s : SharedPace Who) (gs : List (Grant Who)) : Prop where
  starts : ∀ g ∈ gs, g.now - interval r ≤ g.start ∧ g.start ≤ g.now
  spaced : Spaced Grant.start (interval r) gs
  after_last : s.granted = true → ∀ g ∈ gs, s.last + interval r ≤ g.start

theorem paced_grants (hr : 0 < r) (s : SharedPace Who) (calls : List (Call Who)) :
    Paced r s (grants r s calls) := by
  induction calls generalizing s with
  | nil =>
    rw [grants, answers, List.filterMap_nil]
    exact ⟨fun _ h => absurd h List.not_mem_nil, List.Pairwise.nil,
      fun _ _ h => absurd h List.not_mem_nil⟩
  | cons c cs ih =>
    have hrest := ih (s.next r c)
    have hans := answered hr s c
    rw [grants, answers, List.filterMap_cons, Answer.grant]
    generalize (s.answer r c).slot = slot, s.next r c = t at hans hrest
    cases hans with
    | refused => exact { hrest with }
    | taken hfree hturn =>
      have hlater : ∀ g ∈ grants r ((s.prune r c.now).take r c.who c.now) cs,
          s.slotStart r c.now + interval r ≤ g.start := hrest.after_last rfl
      refine ⟨List.forall_mem_cons.mpr ⟨⟨sub_interval_le_slotStart, slotStart_le hfree⟩,
        hrest.starts⟩, List.Pairwise.cons hlater hrest.spaced, fun hg => ?_⟩
      have hfirst : s.last + interval r ≤ s.slotStart r c.now := last_add_le_slotStart hg
      refine List.forall_mem_cons.mpr ⟨hfirst, fun g hmem => ?_⟩
      have := hlater g hmem
      have := interval_pos r
      linarith

/-- At a constant rate, whoever asks and whatever the clocks say, a window of length `T` sees at
most `T / I + 2` grants: their slots start in the window or in the interval before it. -/
theorem holds_ceiling (hr : 0 < r) (calls : List (Call Who)) :
    (∀ g ∈ grants r {} calls, g.now - interval r ≤ g.start ∧ g.start ≤ g.now) ∧
    Spaced Grant.start (interval r) (grants r {} calls) ∧
    ∀ x T : ℚ, 0 ≤ T →
      (((grants r {} calls).filter fun g => x ≤ g.now ∧ g.now ≤ x + T).length : ℚ) ≤
        T / interval r + 2 := by
  obtain ⟨hstarts, hspaced, -⟩ := paced_grants hr {} calls
  refine ⟨hstarts, hspaced, fun x T hT => ?_⟩
  have hI := interval_pos r
  have hin : ∀ g ∈ (grants r {} calls).filter fun g => x ≤ g.now ∧ g.now ≤ x + T,
      x - interval r ≤ g.start ∧ g.start ≤ x + T := by
    intro g hg
    obtain ⟨hmem, hwin⟩ := List.mem_filter.mp hg
    obtain ⟨hlo, hhi⟩ := of_decide_eq_true hwin
    obtain ⟨hcredit, hnow⟩ := hstarts g hmem
    constructor <;> linarith
  have hcount := (hspaced.sublist List.filter_sublist).length_le hI (fun g hg => (hin g hg).1)
    (fun g hg => (hin g hg).2) (by linarith)
  have hroom : (x + T - (x - interval r)) / interval r = T / interval r + 1 := by
    field_simp
    ring
  rw [hroom] at hcount
  linarith

/-- Two queues at one slot a second: of five calls within a second and a half three are granted. -/
theorem holds_ceiling_two_queues :
    (0 : ℚ) < 1 ∧
    (grants 1 {} [⟨0, 10⟩, ⟨1, 21 / 2⟩, ⟨1, 11⟩, ⟨0, 11⟩, ⟨0, 23 / 2⟩] : List (Grant Nat)).map
      Grant.start = [9, 10, 11] ∧
    Spaced Grant.start (interval 1)
      (grants 1 {} [⟨0, 10⟩, ⟨1, 21 / 2⟩, ⟨1, 11⟩, ⟨0, 11⟩, ⟨0, 23 / 2⟩] : List (Grant Nat)) :=
  ⟨one_pos, by decide +kernel, (holds_ceiling one_pos _).2.1⟩

/-! ### Waiting order -/

/-- What the answers alone say of one queue's waiting: it begins with a refused ask, goes on while
the queue asks again within `gap`, and ends with a grant. -/
def waitAfter (gap : ℚ) (who : Who) (w : Option Waiter) (a : Answer Who) : Option Waiter :=
  if a.who ≠ who then w
  else if a.slot.isSome then none
  else some ⟨((w.filter (Waiter.fresh gap a.now)).map Waiter.since).getD a.now, a.now⟩

def waitOf (gap : ℚ) (who : Who) (log : List (Answer Who)) : Option Waiter :=
  log.foldl (waitAfter gap who) none

/-- When the queue's waiting began, as seen at `now`; `none` if it is not waiting. -/
def waitingSince (gap : ℚ) (who : Who) (log : List (Answer Who)) (now : ℚ) : Option ℚ :=
  ((waitOf gap who log).filter (Waiter.fresh gap now)).map Waiter.since

/-- From time `t` on, the map and the log agree on who is waiting and since when. -/
def Agrees (r : ℚ) (log : List (Answer Who)) (t : ℚ) (s : SharedPace Who) : Prop :=
  ∀ who now, t ≤ now → (s.prune r now).waiting.lookup who =
    (waitOf (stale r) who log).filter (Waiter.fresh (stale r) now)

theorem lookup_prune : (s.prune r now).waiting.lookup who =
    (s.waiting.lookup who).filter (Waiter.fresh (stale r) now) :=
  Assoc.lookup_keep

theorem lookup_wait {who' : Who} : (s.wait r who now).2.waiting.lookup who' =
    if who' = who then some ⟨((s.waiting.lookup who).map Waiter.since).getD now, now⟩
    else s.waiting.lookup who' :=
  Assoc.lookup_insert_ite

theorem lookup_take {who' : Who} : (s.take r who now).waiting.lookup who' =
    if who' = who then none else s.waiting.lookup who' :=
  Assoc.lookup_erase_ite

theorem agrees_new (r t : ℚ) : Agrees r [] t ({} : SharedPace Who) := by
  intro who now _
  rw [lookup_prune]
  rfl

theorem filter_fresh {gap now now' : ℚ} (h : now ≤ now') (w : Option Waiter) :
    (w.filter (Waiter.fresh gap now)).filter (Waiter.fresh gap now') =
      w.filter (Waiter.fresh gap now') := by
  rw [Option.filter_filter]
  congr 1
  funext w
  have hmono : w.fresh gap now' = true → w.fresh gap now = true := by
    simp only [Waiter.fresh, decide_eq_true_iff]
    intro hfresh
    linarith
  cases h' : w.fresh gap now' with
  | false => simp
  | true => simp [hmono h']

theorem waitOf_concat (gap : ℚ) (who : Who) (log : List (Answer Who)) (a : Answer Who) :
    waitOf gap who (log ++ [a]) = waitAfter gap who (waitOf gap who log) a := by
  rw [waitOf, List.foldl_append]
  rfl

variable {log : List (Answer Who)} {calls : List (Call Who)}

theorem agrees_next (hr : 0 < r) {t : ℚ} {c : Call Who} (h : Agrees r log t s) (ht : t ≤ c.now) :
    Agrees r (log ++ [s.answer r c]) c.now (s.next r c) := by
  intro who now hnow
  have hwas := h who c.now ht
  have hans := answered hr s c
  have hask : (s.answer r c).who = c.who ∧ (s.answer r c).now = c.now := ⟨rfl, rfl⟩
  rw [waitOf_concat, lookup_prune, waitAfter, hask.1, hask.2, ← hwas]
  generalize (s.answer r c).slot = slot, s.next r c = s' at hans
  by_cases hwho : c.who = who
  · subst hwho
    rw [if_neg (fun h => h rfl)]
    cases hans with
    | refused => rw [lookup_wait, if_pos rfl, if_neg (by simp)]
    | taken hfree hturn => rw [lookup_take, if_pos rfl, if_pos (by simp)]
  · have hkeep : s'.waiting.lookup who = (s.prune r c.now).waiting.lookup who := by
      cases hans with
      | refused => rw [lookup_wait, if_neg (Ne.symm hwho)]
      | taken hfree hturn => rw [lookup_take, if_neg (Ne.symm hwho)]
    rw [if_pos hwho, hkeep, hwas, filter_fresh hnow]

/-- Whoever may take a slot while `A` waits has waited at least as long. -/
theorem since_le_of_turn {A : Who} {w : Waiter} (hturn : s.behind who = false)
    (hA : s.waiting.lookup A = some w) (hne : A ≠ who) :
    ∃ mine, s.waiting.lookup who = some mine ∧ mine.since ≤ w.since := by
  have hfirst := List.any_eq_false.mp hturn _ (Assoc.mem_entries_iff.mpr hA)
  cases hmine : s.waiting.lookup who with
  | none => simp [hmine, hne] at hfirst
  | some mine => exact ⟨mine, rfl, by simpa [hmine, hne] using hfirst⟩

/-- `A` waits since `a` or longer and last asked at `asked`; whoever was served since then has to
wait from a later time. -/
structure Ahead (A : Who) (a asked : ℚ) (served : List Who) (s : SharedPace Who) : Prop where
  waits : ∃ w, s.waiting.lookup A = some w ∧ w.since ≤ a ∧ w.asked = asked
  later : ∀ B ∈ served, ∀ w, s.waiting.lookup B = some w → a < w.since

section Ahead

variable {A : Who} {a asked : ℚ} {served : List Who} {c : Call Who}

theorem Ahead.prune (h : Ahead A a asked served s) (hfresh : now - asked ≤ stale r) :
    Ahead A a asked served (s.prune r now) := by
  obtain ⟨⟨w, hw, hsince, rfl⟩, hlater⟩ := h
  refine ⟨⟨w, ?_, hsince, rfl⟩, fun B hB w' hw' => ?_⟩
  · have : w.fresh (stale r) now = true := decide_eq_true hfresh
    rw [lookup_prune, hw, Option.filter_some, if_pos this]
  · rw [lookup_prune, Option.filter_eq_some_iff] at hw'
    exact hlater B hB w' hw'.1

theorem Ahead.wait (h : Ahead A a asked served s) (hlate : a < now) :
    Ahead A a (if who = A then now else asked) served (s.wait r who now).2 := by
  obtain ⟨⟨w, hw, hsince, hasked⟩, hlater⟩ := h
  constructor
  · by_cases hwho : who = A
    · subst hwho
      exact ⟨⟨w.since, now⟩, by simp [lookup_wait, hw], hsince, by simp⟩
    · exact ⟨w, by rw [lookup_wait, if_neg (Ne.symm hwho), hw], hsince, by rw [hasked, if_neg hwho]⟩
  · intro B hB w' hw'
    rw [lookup_wait] at hw'
    by_cases hBwho : B = who
    · subst hBwho
      rw [if_pos rfl, Option.some.injEq] at hw'
      subst hw'
      cases hold : s.waiting.lookup B with
      | none => exact hlate
      | some old => exact hlater B hB old hold
    · rw [if_neg hBwho] at hw'
      exact hlater B hB w' hw'

theorem Ahead.take (h : Ahead A a asked served s) (hwho : who ≠ A) :
    Ahead A a asked (who :: served) (s.take r who now) := by
  obtain ⟨⟨w, hw, hsince⟩, hlater⟩ := h
  refine ⟨⟨w, by rw [lookup_take, if_neg (Ne.symm hwho), hw], hsince⟩, fun B hB w' hw' => ?_⟩
  rw [lookup_take] at hw'
  split at hw'
  · cases hw'
  · rename_i hne
    exact hlater B ((List.mem_cons.mp hB).resolve_left hne) w' hw'

/-- Every call of the list comes within `gap` of the last ask of `A` before it. -/
def AsksWithin (gap : ℚ) (A : Who) : ℚ → List (Call Who) → Prop
  | _, [] => True
  | asked, c :: cs => c.now - asked ≤ gap ∧ AsksWithin gap A (if c.who = A then c.now else asked) cs

/-- What is granted while `A` waits: each queue once, to queues that began to wait no later. -/
structure InTurn (r a : ℚ) (served : List Who) (log later : List (Answer Who)) : Prop where
  once : ((later.filterMap Answer.grant).map Grant.who ++ served).Nodup
  order : ∀ l g l', later = l ++ g :: l' → g.slot.isSome = true →
    ∃ t, waitingSince (stale r) g.who (log ++ l) g.now = some t ∧ t ≤ a

theorem InTurn.cons {later : List (Answer Who)} {served' : List Who} {ans : Answer Who}
    (h : InTurn r a served' (log ++ [ans]) later)
    (honce : (((ans :: later).filterMap Answer.grant).map Grant.who ++ served).Nodup)
    (hans : ans.slot.isSome = true →
      ∃ t, waitingSince (stale r) ans.who log ans.now = some t ∧ t ≤ a) :
    InTurn r a served log (ans :: later) := by
  refine ⟨honce, fun l g l' hsplit hg => ?_⟩
  cases l with
  | nil =>
    obtain ⟨rfl, -⟩ := List.cons.inj hsplit
    simpa using hans hg
  | cons x l =>
    obtain ⟨rfl, hrest⟩ := List.cons.inj hsplit
    simpa using h.order l g l' hrest hg

theorem inTurn_answers (hr : 0 < r) {t : ℚ} (hinc : calls.Pairwise fun c d => c.now < d.now)
    (hlate : ∀ c ∈ calls, a < c.now) (ht : ∀ c ∈ calls, t ≤ c.now) (hlog : Agrees r log t s)
    (h : Ahead A a asked served s) (hasks : AsksWithin (stale r) A asked calls)
    (hnot : ∀ g ∈ grants r s calls, g.who ≠ A) (hserved : served.Nodup) :
    InTurn r a served log (answers r s calls) := by
  induction calls generalizing s log t asked served with
  | nil =>
    exact ⟨by simpa [answers] using hserved, fun l g l' hsplit => by simp [answers] at hsplit⟩
  | cons c cs ih =>
    obtain ⟨hfirst, hrest⟩ := List.pairwise_cons.mp hinc
    have hnow := hlate c List.mem_cons_self
    have hpruned : Ahead A a asked served (s.prune r c.now) := h.prune hasks.1
    have hagree := agrees_next hr hlog (ht c List.mem_cons_self)
    have hans := answered hr s c
    have hlate' := fun d hd => hlate d (List.mem_cons_of_mem c hd)
    rw [grants, answers, List.filterMap_cons, Answer.grant] at hnot
    generalize hslot : (s.answer r c).slot = slot, hs' : s.next r c = s' at hans hnot hagree
    rw [answers, hs']
    cases hans with
    | refused =>
      have hlater := ih hrest hlate' (fun d hd => (hfirst d hd).le) hagree (hpruned.wait hnow)
        hasks.2 hnot hserved
      exact hlater.cons (by simpa [Answer.grant, hslot] using hlater.once) (by simp [hslot])
    | taken hfree hturn =>
      obtain ⟨hwho, hnot⟩ := List.forall_mem_cons.mp hnot
      replace hwho : c.who ≠ A := hwho
      obtain ⟨w, hw, hsince, -⟩ := hpruned.waits
      obtain ⟨mine, hmine, hle⟩ := since_le_of_turn hturn hw (Ne.symm hwho)
      -- a queue served since `a` waits from a later time, so it cannot have this turn
      have hnew : c.who ∉ served := fun hold =>
        absurd (hpruned.later c.who hold mine hmine) (by linarith)
      have hwait : waitingSince (stale r) c.who log c.now = some mine.since := by
        rw [waitingSince, ← hlog c.who c.now (ht c List.mem_cons_self), hmine]
        rfl
      have hasked := hasks.2
      rw [if_neg hwho] at hasked
      have hlater := ih hrest hlate' (fun d hd => (hfirst d hd).le) hagree (hpruned.take hwho)
        hasked hnot (List.nodup_cons.mpr ⟨hnew, hserved⟩)
      refine hlater.cons ?_ fun _ => ⟨_, hwait, hle.trans hsince⟩
      have hasker : (s.answer r c).who = c.who := rfl
      simpa [Answer.grant, hslot, hasker] using List.perm_middle.nodup_iff.mp hlater.once

end Ahead

theorem agrees_serve (hr : 0 < r) {t : ℚ} (h : Agrees r log t s) (ht : ∀ c ∈ calls, t ≤ c.now)
    (htnow : t ≤ now) (hinc : calls.Pairwise fun c d => c.now < d.now)
    (hnow : ∀ c ∈ calls, c.now ≤ now) :
    Agrees r (log ++ answers r s calls) now (serve r s calls) := by
  induction calls generalizing s log t with
  | nil =>
    intro who now' hle
    simpa [answers, serve] using h who now' (htnow.trans hle)
  | cons c cs ih =>
    obtain ⟨hfirst, hrest⟩ := List.pairwise_cons.mp hinc
    have hagree := agrees_next hr h (ht c List.mem_cons_self)
    have := ih hagree (fun d hd => (hfirst d hd).le) (hnow c List.mem_cons_self) hrest
      fun d hd => hnow d (List.mem_cons_of_mem c hd)
    simpa [answers, serve] using this

theorem agrees_serve_new (hr : 0 < r) (hinc : calls.Pairwise fun c d => c.now < d.now)
    (hnow : ∀ c ∈ calls, c.now ≤ now) :
    Agrees r (answers r {} calls) now (serve r {} calls) := by
  cases calls with
  | nil => exact agrees_new r now
  | cons c cs =>
    refine agrees_serve hr (agrees_new r c.now) ?_ (hnow c List.mem_cons_self) hinc hnow
    exact List.forall_mem_cons.mpr ⟨le_rfl, fun d hd => (List.rel_of_pairwise_cons hinc hd).le⟩

/-- No queue waits since a time after the last call. -/
def Settled (t : ℚ) (s : SharedPace Who) : Prop :=
  ∀ who w, s.waiting.lookup who = some w → w.since ≤ t

theorem settled_wait {t : ℚ} (h : Settled t s) (hnow : now ≤ t) :
    Settled t ((s.prune r now).wait r who now).2 := by
  intro B w hw
  have hold : ∀ B w, (s.prune r now).waiting.lookup B = some w → w.since ≤ t := by
    intro B w hw
    rw [lookup_prune, Option.filter_eq_some_iff] at hw
    exact h B w hw.1
  rw [lookup_wait] at hw
  split at hw
  · cases hw
    cases hmine : (s.prune r now).waiting.lookup who with
    | none => exact hnow
    | some mine => exact hold who mine hmine
  · exact hold B w hw

theorem settled_serve (hr : 0 < r) {t : ℚ} (h : Settled t s) (hnow : ∀ c ∈ calls, c.now ≤ t) :
    Settled t (serve r s calls) := by
  induction calls generalizing s with
  | nil => exact h
  | cons c cs ih =>
    refine ih (s := s.next r c) ?_ fun d hd => hnow d (List.mem_cons_of_mem c hd)
    have hans := answered hr s c
    generalize (s.answer r c).slot = slot, s.next r c = s' at hans
    cases hans with
    | refused => exact settled_wait h (hnow c List.mem_cons_self)
    | taken hfree hturn =>
      intro B w hw
      rw [lookup_take] at hw
      split at hw
      · cases hw
      · rw [lookup_prune, Option.filter_eq_some_iff] at hw
        exact h B w hw.1

theorem ahead_of_refused (hr : 0 < r) {A : Who} {a : ℚ} (h : Settled a s)
    (href : (s.answer r ⟨A, a⟩).slot = none) : Ahead A a a [] (s.next r ⟨A, a⟩) := by
  have hans := answered hr s ⟨A, a⟩
  rw [href] at hans
  generalize hs' : s.next r ⟨A, a⟩ = s' at hans
  cases hans with
  | refused =>
    refine ⟨⟨_, by rw [lookup_wait, if_pos rfl], ?_, rfl⟩, fun _ hB => absurd hB List.not_mem_nil⟩
    exact settled_wait h le_rfl A _ (by rw [lookup_wait, if_pos rfl])

/-- While `A`, refused at `a`, keeps asking and is not granted, slots go to every other queue at
most once, and only to queues whose waiting did not begin after `a`. -/
theorem grants_in_waiting_order (hr : 0 < r) (before after : List (Call Who)) (A : Who) (a : ℚ)
    (hinc : (before ++ ⟨A, a⟩ :: after).Pairwise fun c d => c.now < d.now)
    (href : ((serve r {} before).answer r ⟨A, a⟩).slot = none)
    (hasks : AsksWithin (stale r) A a after)
    (hnot : ∀ g ∈ grants r (serve r {} (before ++ [⟨A, a⟩])) after, g.who ≠ A) :
    ((grants r (serve r {} (before ++ [⟨A, a⟩])) after).map Grant.who).Nodup ∧
    ∀ l g l', answers r (serve r {} (before ++ [⟨A, a⟩])) after = l ++ g :: l' →
      g.slot.isSome = true →
      ∃ t, waitingSince (stale r) g.who (answers r {} (before ++ [⟨A, a⟩]) ++ l) g.now = some t ∧
        t ≤ a := by
  obtain ⟨hbefore, htail, hacross⟩ := List.pairwise_append.mp hinc
  obtain ⟨hlate, hafter⟩ := List.pairwise_cons.mp htail
  have hle : ∀ c ∈ before, c.now ≤ a := fun c hc => (hacross c hc _ List.mem_cons_self).le
  have hupto : ∀ c ∈ before ++ [⟨A, a⟩], c.now ≤ a := by simpa [or_imp, forall_and] using hle
  have hserve : serve r {} (before ++ [⟨A, a⟩]) = (serve r {} before).next r ⟨A, a⟩ := by
    simp [serve]
  have hempty : Settled a ({} : SharedPace Who) := fun _ _ hw => by simp at hw
  have hahead := ahead_of_refused hr (settled_serve hr hempty hle) href
  rw [← hserve] at hahead
  have hlog := agrees_serve_new hr (hinc.sublist (by simp)) hupto
  have h := inTurn_answers hr hafter hlate (fun c hc => (hlate c hc).le) hlog hahead hasks hnot
    List.nodup_nil
  exact ⟨by simpa [grants] using h.once, h.order⟩

/-- Queue 0 is refused at 0.3 s behind queue 1, which waits since 0.2 s: queue 1 takes the next
slot once, and asking again does not get it another. -/
theorem waiting_order_patient_queue :
    ((serve 1 {} [⟨1, 0⟩, ⟨1, 1 / 10⟩, ⟨1, 2 / 10⟩] : SharedPace Nat).answer 1 ⟨0, 3 / 10⟩).slot =
      none ∧
    (grants 1 (serve 1 {} ([⟨1, 0⟩, ⟨1, 1 / 10⟩, ⟨1, 2 / 10⟩] ++ [⟨0, 3 / 10⟩]))
      [⟨1, 1⟩, ⟨1, 11 / 10⟩, ⟨0, 12 / 10⟩] : List (Grant Nat)).map Grant.who = [1] ∧
    ((grants 1 (serve 1 {} ([⟨1, 0⟩, ⟨1, 1 / 10⟩, ⟨1, 2 / 10⟩] ++ [⟨0, 3 / 10⟩]))
      [⟨1, 1⟩, ⟨1, 11 / 10⟩, ⟨0, 12 / 10⟩] : List (Grant Nat)).map Grant.who).Nodup := by
  have href : ((serve 1 {} [⟨1, 0⟩, ⟨1, 1 / 10⟩, ⟨1, 2 / 10⟩] : SharedPace Nat).answer 1
      ⟨0, 3 / 10⟩).slot = none := by decide +kernel
  refine ⟨href, by decide +kernel, ?_⟩
  refine (grants_in_waiting_order one_pos _ _ 0 (3 / 10) (by decide +kernel) href ?_
    (by decide +kernel)).1
  refine ⟨?_, ?_, ?_, trivial⟩ <;> decide +kernel

end SharedPace

end Aquifer
