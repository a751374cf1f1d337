import StackRover.Machine.Step

/-!
# Driving a run

A run is driven step by step, turn by turn, or to its end. Every term counts against the limit of
the run, so a run ends within `maxSteps + 1` terms, unless a host script loads the machine anew
and so restarts the count. The driving loops therefore have an allowance far beyond that bound.

* `Machine.advance`: up to the end of the turn.
* `Machine.run`, `Machine.execute`: up to the end of the run.
* `Machine.runPaced`: the same with a pause after every turn. A negative delay lasts up to the first
  pause, which fails.
-/

namespace StackRover

variable {σ : Type}

/-- Pause for the given milliseconds. No delay is no pause, and a negative one cannot be waited
for. -/
def Run.pause (delay : Int) : Run σ Unit :=
  if delay < 0 then throw (.failure .negativePause)
  else if delay = 0 then pure ()
  else emit (.pause delay)

namespace Machine

/-- How often a host script may start the run anew while it is driven. -/
def restarts : Nat := 1048576

/-- The number of steps that a driving loop may take. -/
def allowance (machine : Machine σ) : Nat := (machine.maxSteps.toNat + 2) * restarts

/-- Step until the player has acted or the run is over. -/
def advanceWithin [World σ] : Nat → Run σ Progress
  | 0 => throw .exhausted
  | fuel + 1 => do
    match ← step with
    | .ongoing => advanceWithin fuel
    | progress => return progress

/-- Step until the run is over, with a pause of the given milliseconds whenever the player has
acted. -/
def finishWithin [World σ] (delay : Int) : Nat → Run σ Unit
  | 0 => throw .exhausted
  | fuel + 1 => do
    match ← step with
    | .ongoing => finishWithin delay fuel
    | .paused =>
      Run.pause delay
      finishWithin delay fuel
    | _ => return

/-- Go on to the end of the turn: until the player has acted or the run is over. -/
def advance [World σ] : Run σ Progress := do advanceWithin (← get).allowance

/-- The result of a run that is over: its stack, or its error. -/
def outcome : Run σ (List Int) := do
  let machine ← get
  match machine.error with
  | some fault => throw (.fault fault)
  | none => return machine.memory.stack

/-- Go on to the end of the run, with a pause after every turn. Gives the stack. -/
def finish [World σ] (delay : Int) : Run σ (List Int) := do
  finishWithin delay (← get).allowance
  outcome

/-- Go on to the end of the run. Gives the stack. -/
def run [World σ] : Run σ (List Int) := finish 0

/-- Run a program text on a stack, with a pause after every turn. -/
def runPaced [World σ] (delay : Int) (text : String) (stack : List Int) : Run σ (List Int) := do
  modify fun machine => machine.load (Program.tokenize text) stack
  finish delay

/-- Run a program text on a stack. -/
def execute [World σ] (text : String) (stack : List Int) : Run σ (List Int) := do
  modify fun machine => machine.load (Program.tokenize text) stack
  run

end Machine

end StackRover
