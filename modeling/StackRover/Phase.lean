/-!
# The phases of a run

A run starts `running`. It is `suspended` after every action of the player and running again with
the next step; it ends `completed` or `failed`.

* `next?_eq_none_of_final`: nothing leads out of a final phase.
-/

namespace StackRover

/-- The phase of a run. -/
inductive Phase where
  | running
  | suspended
  | completed
  | failed
  deriving Repr, DecidableEq

/-- What can happen to a run. -/
inductive Transition where
  | suspend
  | resume
  | complete
  | fail
  deriving Repr, DecidableEq

/-- The name of the transition in messages. -/
def Transition.name : Transition → String
  | suspend => "suspend"
  | resume => "resume"
  | complete => "complete"
  | fail => "fail"

namespace Phase

/-- The name of the phase in messages. -/
def name : Phase → String
  | running => "Running"
  | suspended => "Suspended"
  | completed => "Completed"
  | failed => "Failed"

/-- Whether the run is over. -/
def isFinal : Phase → Bool
  | completed | failed => true
  | running | suspended => false

/-- The phase that a transition leads to, where it is allowed. -/
def next? : Phase → Transition → Option Phase
  | running, .suspend => some suspended
  | suspended, .resume => some running
  | running, .complete => some completed
  | running, .fail => some failed
  | suspended, .fail => some failed
  | _, _ => none

/-- Nothing leads out of a final phase. -/
theorem next?_eq_none_of_final {p : Phase} (h : p.isFinal = true) (t : Transition) :
    p.next? t = none := by
  cases p <;> cases t <;> simp_all [isFinal, next?]

end Phase

/-- What one step tells the driver of a run to do next. -/
inductive Progress where
  /-- The run goes on. -/
  | ongoing
  /-- The player has acted; the run goes on with the next turn. -/
  | paused
  /-- The run has completed. -/
  | finished
  /-- The run has failed. -/
  | failed
  deriving Repr, DecidableEq

end StackRover
