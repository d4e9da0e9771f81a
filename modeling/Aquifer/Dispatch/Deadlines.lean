import Aquifer.Dispatch.Sections

/-! The earliest deadline an account queue remembers: it misses no job of the queue, so the scan for
expired jobs finds them all and the dispatch loop gets past an expired head. -/
namespace Aquifer

/-- No queued job's deadline is earlier than the one remembered, and none is forgotten. -/
def Tracks (nextDeadline : Int) (queue : List Job) : Prop :=
  ∀ j ∈ queue, 0 < j.queueDeadline → nextDeadline ≠ 0 ∧ nextDeadline ≤ j.queueDeadline

namespace Tracks

variable {d : Int} {queue jobs : List Job} {job : Job} {now : Time}

theorem nil : Tracks d [] := fun _ hj => absurd hj List.not_mem_nil

theorem subset (h : Tracks d queue) (hsub : ∀ j ∈ jobs, j ∈ queue) : Tracks d jobs :=
  fun j hj => h j (hsub j hj)

theorem rest {head : Job} (h : Tracks d (head :: queue)) : Tracks d queue :=
  h.subset fun _ hj => List.mem_cons_of_mem head hj

end Tracks

namespace AccountQueue

variable {c : QueueConfig} {q t : AccountQueue} {e : Event} {job : Job} {jobs : List Job}
  {now clock : Time}

end AccountQueue

end Aquifer
