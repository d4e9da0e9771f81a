import Aquifer.Lib.Assoc
import Aquifer.Lib.Trace

/-! One shard of the stream follower: the map of followers, changed under a lock, and the commands
on the shard's connection, which are sent outside it. -/
namespace Aquifer.Websocket

/-- How far a `follow` call has come: its `Subscribe` is still to be issued, or has failed so that
the call is about to close its follower, or the call has succeeded. -/
inductive Stage
  | subscribing
  | failed
  | following
deriving DecidableEq, Repr

structure FollowSub where
  channel : String
  stage : Stage
deriving DecidableEq, Repr

/-- The followers by the call that made them, the channels the connection is subscribed to, and the
channels a `Close` is still to issue an `Unsubscribe` for. -/
structure FollowShard where
  subs : Assoc Nat FollowSub := ∅
  subscribed : List String := []
  unsubscribing : List String := []

/-- `subs[channel]` is there; a channel without followers has no entry. -/
def followed (subs : Assoc Nat FollowSub) (channel : String) : Bool :=
  subs.entries.any fun e => e.2.channel = channel

/-- A `Subscribe` or an `Unsubscribe` that returns an error may have taken effect or not. -/
inductive FollowEvent
  | follow (id : Nat) (channel : String)
  | subscribe (id : Nat) (ok took : Bool)
  | close (id : Nat)
  | unsubscribe (channel : String) (took : Bool)
deriving DecidableEq, Repr

namespace FollowShard

variable {s t : FollowShard} {e : FollowEvent} {subs : Assoc Nat FollowSub} {id : Nat}
  {channel : String} {sub : FollowSub}

def step (s : FollowShard) : FollowEvent → Option FollowShard
  -- the locked part of `follow`; a follower that is not the first has succeeded with it
  | .follow id channel =>
    if (s.subs.lookup id).isNone then
      let stage := if followed s.subs channel then .following else .subscribing
      some { s with subs := s.subs.insert id ⟨channel, stage⟩ }
    else none
  | .subscribe id ok took =>
    match s.subs.lookup id with
    | some ⟨channel, .subscribing⟩ =>
      some { s with
        subs := s.subs.insert id ⟨channel, if ok then .following else .failed⟩
        subscribed := if ok || took then channel :: s.subscribed else s.subscribed }
    | _ => none
  -- the locked part of `Close`, by the session or by a `follow` that failed
  | .close id =>
    match s.subs.lookup id with
    | some ⟨channel, stage⟩ =>
      if stage = .subscribing then none
      else
        let subs := s.subs.erase id
        let last := !followed subs channel
        some { s with
          subs := subs
          unsubscribing := if last then channel :: s.unsubscribing else s.unsubscribing }
    | none => none
  | .unsubscribe channel took =>
    if channel ∈ s.unsubscribing then
      some { s with
        unsubscribing := s.unsubscribing.erase channel
        subscribed := if took then s.subscribed.filter (· ≠ channel) else s.subscribed }
    else none

/-- No `follow` and no `Close` on the channel is in progress. -/
def Idle (s : FollowShard) (channel : String) : Prop :=
  channel ∉ s.unsubscribing ∧
    ∀ id sub, s.subs.lookup id = some sub → sub.channel = channel → sub.stage = .following

/-- A channel gets its first follower only when no `Unsubscribe` for it is still to be issued, and a
`follow` that failed leaves no other follower behind. -/
def Orderly (s : FollowShard) : FollowEvent → Prop
  | .follow _ channel => followed s.subs channel = false → channel ∉ s.unsubscribing
  | .close id => ∀ sub ∈ s.subs.lookup id, sub.stage = .failed →
      followed (s.subs.erase id) sub.channel = false
  | .subscribe _ _ _ | .unsubscribe _ _ => True

instance (s : FollowShard) : (e : FollowEvent) → Decidable (s.Orderly e)
  | .follow _ channel =>
    inferInstanceAs (Decidable (followed s.subs channel = false → channel ∉ s.unsubscribing))
  | .close id => inferInstanceAs (Decidable (∀ sub ∈ s.subs.lookup id, sub.stage = .failed →
      followed (s.subs.erase id) sub.channel = false))
  | .subscribe _ _ _ | .unsubscribe _ _ => isTrue trivial

theorem followed_iff :
    followed subs channel = true ↔ ∃ id sub, subs.lookup id = some sub ∧ sub.channel = channel := by
  rw [followed, List.any_eq_true]
  constructor
  · rintro ⟨⟨id, sub⟩, hmem, hch⟩
    exact ⟨id, sub, Assoc.mem_entries_iff.mp hmem, of_decide_eq_true hch⟩
  · rintro ⟨id, sub, hl, hch⟩
    exact ⟨⟨id, sub⟩, Assoc.mem_entries_iff.mpr hl, decide_eq_true hch⟩

theorem followed_insert_fresh (h : subs.lookup id = none) :
    followed (subs.insert id sub) channel = (sub.channel = channel || followed subs channel) := by
  rw [Bool.eq_iff_iff, Bool.or_eq_true, decide_eq_true_iff, followed_iff, followed_iff]
  constructor
  · rintro ⟨id', sub', hl, hch⟩
    rw [Assoc.lookup_insert_ite] at hl
    split at hl
    · cases hl
      exact .inl hch
    · exact .inr ⟨id', sub', hl, hch⟩
  · rintro (hch | ⟨id', sub', hl, hch⟩)
    · exact ⟨id, sub, by rw [Assoc.lookup_insert_ite, if_pos rfl], hch⟩
    · have hne : id' ≠ id := by
        rintro rfl
        exact absurd (h.symm.trans hl) (by simp)
      exact ⟨id', sub', by rw [Assoc.lookup_insert_ite, if_neg hne, hl], hch⟩

theorem followed_of_erase (h : followed (subs.erase id) channel = true) :
    followed subs channel = true := by
  obtain ⟨id', sub', hl, hch⟩ := followed_iff.mp h
  rw [Assoc.lookup_erase_ite] at hl
  split at hl
  · cases hl
  · exact followed_iff.mpr ⟨id', sub', hl, hch⟩

theorem followed_insert_same (h : subs.lookup id = some sub) (stage : Stage) :
    followed (subs.insert id { sub with stage := stage }) channel = followed subs channel := by
  rw [Bool.eq_iff_iff, followed_iff, followed_iff]
  constructor
  · rintro ⟨id', sub', hl, hch⟩
    rw [Assoc.lookup_insert_ite] at hl
    split at hl
    · cases hl
      exact ⟨id, sub, h, hch⟩
    · exact ⟨id', sub', hl, hch⟩
  · rintro ⟨id', sub', hl, hch⟩
    by_cases hid : id' = id
    · subst hid
      obtain rfl : sub = sub' := Option.some.inj (h.symm.trans hl)
      exact ⟨id', { sub with stage := stage }, by rw [Assoc.lookup_insert_ite, if_pos rfl], hch⟩
    · exact ⟨id', sub', by rw [Assoc.lookup_insert_ite, if_neg hid, hl], hch⟩

/-- Some `follow` on the channel has not succeeded yet. -/
def Busy (subs : Assoc Nat FollowSub) (channel : String) : Prop :=
  ∃ id sub, subs.lookup id = some sub ∧ sub.channel = channel ∧ sub.stage ≠ .following

theorem Busy.insert (h : Busy subs channel)
    (hid : ∀ sub' ∈ subs.lookup id, sub'.channel ≠ channel) :
      Busy (subs.insert id sub) channel := by
  obtain ⟨id', sub', hl, hch, hstage⟩ := h
  have hne : id' ≠ id := by
    rintro rfl
    exact hid sub' hl hch
  exact ⟨id', sub', by rw [Assoc.lookup_insert_ite, if_neg hne, hl], hch, hstage⟩

theorem busy_insert (subs : Assoc Nat FollowSub) (id : Nat) (h : sub.stage ≠ .following) :
    Busy (subs.insert id sub) sub.channel :=
  ⟨id, sub, by rw [Assoc.lookup_insert_ite, if_pos rfl], rfl, h⟩

theorem Busy.erase (h : Busy subs channel) (hid : ∀ sub ∈ subs.lookup id, sub.channel = channel →
    sub.stage = .following) : Busy (subs.erase id) channel := by
  obtain ⟨id', sub', hl, hch, hstage⟩ := h
  have hne : id' ≠ id := by
    rintro rfl
    exact hstage (hid sub' hl hch)
  exact ⟨id', sub', by rw [Assoc.lookup_erase_ite, if_neg hne, hl], hch, hstage⟩

/-- What orderly runs keep: a channel with followers is subscribed or one of them is still at it,
and a channel that is about to be unsubscribed has none. -/
structure Covered (s : FollowShard) : Prop where
  covered : ∀ channel, followed s.subs channel = true → channel ∈ s.subscribed ∨ Busy s.subs channel
  deserted : ∀ channel ∈ s.unsubscribing, followed s.subs channel = false

theorem covered_follow (h : Covered s) (hok : s.Orderly (.follow id channel))
    (hstep : s.step (.follow id channel) = some t) : Covered t := by
  obtain ⟨hfree, ⟨⟩⟩ := Option.ite_none_right_eq_some.mp hstep
  rw [Option.isNone_iff_eq_none] at hfree
  constructor
  · intro c hc
    rw [followed_insert_fresh hfree, Bool.or_eq_true, decide_eq_true_iff] at hc
    cases hfol : followed s.subs c with
    | true => exact (h.covered c hfol).imp_right fun hb => hb.insert (by simp [hfree])
    | false =>
      obtain rfl : channel = c := hc.resolve_right (by simp [hfol])
      exact .inr (busy_insert _ id (by simp [hfol]))
  · intro c hc
    have hne : channel ≠ c := by
      rintro rfl
      exact hok (h.deserted channel hc) hc
    rw [followed_insert_fresh hfree, h.deserted c hc]
    simpa using hne

theorem covered_subscribe {ok took : Bool} (h : Covered s)
    (hstep : s.step (.subscribe id ok took) = some t) : Covered t := by
  simp only [step] at hstep
  split at hstep
  · next ch hl =>
    cases hstep
    constructor
    · intro c hc
      rw [followed_insert_same hl] at hc
      by_cases hne : ch = c
      · subst hne
        cases ok with
        | true => exact .inl (by simp)
        | false => exact .inr (busy_insert _ id (by simp))
      · refine (h.covered c hc).imp (fun hsub => ?_) fun hb => hb.insert (by simpa [hl] using hne)
        cases ok || took <;> simp [hsub]
    · intro c hc
      rw [followed_insert_same hl]
      exact h.deserted c hc
  · cases hstep

theorem covered_close (h : Covered s) (hok : s.Orderly (.close id))
    (hstep : s.step (.close id) = some t) : Covered t := by
  simp only [step] at hstep
  split at hstep
  · next ch stage hl =>
    obtain ⟨hstage, ⟨⟩⟩ := Option.ite_none_left_eq_some.mp hstep
    constructor
    · intro c hc
      refine (h.covered c (followed_of_erase hc)).imp_right fun hb => hb.erase fun sub hsub hch =>
        ?_
      -- a follower that leaves without having succeeded is the channel's last
      obtain rfl : ⟨ch, stage⟩ = sub := Option.some.inj (hl.symm.trans hsub)
      obtain rfl : ch = c := hch
      have hunfailed : stage ≠ .failed := fun hf => absurd (hok _ hl hf) (by simp [hc])
      cases stage <;> trivial
    · intro c hc
      by_cases hfol : followed (s.subs.erase id) c = true
      · refine absurd (h.deserted c ?_) (by simp [followed_of_erase hfol])
        split at hc
        · next hlast =>
          refine (List.mem_cons.mp hc).resolve_left ?_
          rintro rfl
          simp [hfol] at hlast
        · exact hc
      · simpa using hfol
  · cases hstep

theorem covered_unsubscribe {took : Bool} (h : Covered s)
    (hstep : s.step (.unsubscribe channel took) = some t) : Covered t := by
  obtain ⟨hmem, ⟨⟩⟩ := Option.ite_none_right_eq_some.mp hstep
  constructor
  · intro c hc
    refine (h.covered c hc).imp_left fun hsub => ?_
    have hne : c ≠ channel := by
      rintro rfl
      exact absurd (h.deserted c hmem) (by simp [hc])
    split
    · exact List.mem_filter.mpr ⟨hsub, by simpa using hne⟩
    · exact hsub
  · exact fun c hc => h.deserted c (List.mem_of_mem_erase hc)

theorem covered_step (h : Covered s) (hok : s.Orderly e) (hstep : s.step e = some t) :
    Covered t := by
  cases e with
  | follow => exact covered_follow h hok hstep
  | subscribe => exact covered_subscribe h hstep
  | close => exact covered_close h hok hstep
  | unsubscribe => exact covered_unsubscribe h hstep

/-- In an orderly run, a channel on which nothing is in progress and that a session follows is
subscribed. -/
theorem followed_channel_subscribed (es : List FollowEvent)
    (hok : Trace.Along step Orderly {} es) (hrun : Trace.exec step {} es = some s)
    (hidle : s.Idle channel) (hsub : s.subs.lookup id = some ⟨channel, .following⟩) :
    channel ∈ s.subscribed := by
  have hstart : Covered {} :=
    ⟨fun c hc => absurd hc (by simp [followed]), List.forall_mem_nil _⟩
  have hcov := Trace.exec_invariant covered_step hstart hok hrun
  refine (hcov.covered channel (followed_iff.mpr ⟨id, _, hsub, rfl⟩)).resolve_right ?_
  rintro ⟨id', sub', hl, hch, hstage⟩
  exact hstage (hidle.2 id' sub' hl hch)

/-- Two sessions on a channel: the first fails and leaves alone, the second closes, and a third
comes once the channel is unsubscribed. -/
def followedAgain : List FollowEvent :=
  [.follow 0 "c", .subscribe 0 false true, .close 0, .unsubscribe "c" true, .follow 1 "c",
    .subscribe 1 true true, .follow 2 "c", .close 1]

theorem followed_again_subscribed :
    ∃ s, Trace.exec step {} followedAgain = some s ∧ s.Idle "c" ∧ "c" ∈ s.subscribed := by
  have hok : Trace.Along step Orderly {} followedAgain := by decide +kernel
  obtain ⟨s, hrun, hentries, hun⟩ : ∃ s, Trace.exec step {} followedAgain = some s ∧
      s.subs.entries = [⟨2, ⟨"c", .following⟩⟩] ∧ s.unsubscribing = [] := by
    decide +kernel
  have hidle : s.Idle "c" := by
    refine ⟨by simp [hun], fun id sub hl _ => ?_⟩
    have hmem := Assoc.mem_entries_iff.mpr hl
    rw [hentries] at hmem
    cases List.mem_singleton.mp hmem
    rfl
  have hsub : s.subs.lookup 2 = some ⟨"c", .following⟩ :=
    Assoc.mem_entries_iff.mp (hentries ▸ List.mem_singleton_self _)
  exact ⟨s, hrun, hidle, followed_channel_subscribed followedAgain hok hrun hidle hsub⟩

/-- A session comes between the last `Close` and its `Unsubscribe`, and its own `Subscribe` is
issued first. Nothing is in progress in the end, the session follows the channel, and the channel is
not subscribed. -/
theorem followed_channel_unsubscribed :
    ∃ s, Trace.exec step {} [.follow 0 "c", .subscribe 0 true true, .close 0, .follow 1 "c",
        .subscribe 1 true true, .unsubscribe "c" true] = some s ∧
      s.subs.entries = [⟨1, ⟨"c", .following⟩⟩] ∧ s.unsubscribing = [] ∧ s.subscribed = [] := by
  decide +kernel

/-- So it is, until the connection is made anew, for a session that joins a channel whose first
`Subscribe` then fails. -/
theorem joined_channel_unsubscribed :
    ∃ s, Trace.exec step {} [.follow 0 "c", .follow 1 "c", .subscribe 0 false false, .close 0] =
        some s ∧
      s.subs.entries = [⟨1, ⟨"c", .following⟩⟩] ∧ s.unsubscribing = [] ∧ s.subscribed = [] := by
  decide +kernel

end FollowShard

end Aquifer.Websocket
