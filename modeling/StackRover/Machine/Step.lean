import StackRover.Machine

/-!
# Steps

One step executes one term. The machine resolves the term, makes sure that the stack is deep enough,
takes the term from the program and performs what it names; then it notifies the world, counts the
step and checks the limit.

A host script may step the machine again before its own step has ended. `stepWith` takes that inner
step as an argument, and `stepAt` ties the knot for scripts nested to a given depth.

* `Machine.step`: one step.
-/

namespace StackRover

variable {σ : Type}

/-- What a script sees of the machine. -/
def Machine.sight (machine : Machine σ) : Sight :=
  ⟨machine.memory.stack, machine.memory.pending, machine.steps, machine.phase⟩

/-- Carry out a host script; `again` is the step that it may take. -/
def Script.perform (again : Run σ Progress) : Script → Run σ Unit
  | .done => pure ()
  | .push values next => do
    modify fun machine => machine.pushAll values
    next.perform again
  | .pop next => do
    let value ← Run.within Task.pop
    (next value).perform again
  | .splice terms next => do
    Run.within (Task.splice terms)
    next.perform again
  | .take name next => do
    let term ← Run.within (Task.nextTerm name)
    (next term).perform again
  | .define name body next => do
    Run.within (Task.define name body)
    next.perform again
  | .forget next => do
    Run.within Task.forget
    next.perform again
  | .load terms stack next => do
    modify fun machine => machine.load terms stack
    next.perform again
  | .step next => do
    let progress ← again
    (next progress).perform again
  | .write note next => do
    Run.emit (.note note)
    next.perform again
  | .observe next => do
    let machine ← get
    (next machine.sight).perform again
  | .raise raised => throw raised

/-- Perform what a term names. -/
def Entry.perform [World σ] (again : Run σ Progress) : Entry → Run σ Unit
  | .definition d => Run.within (Task.splice d.body)
  | .operation o =>
    match o.effect with
    | .builtin builtin => Run.within builtin.perform
    | .hosted script => script.perform again

namespace Machine

/-- Notify the world of a performed term, count it, and check the limit. -/
def conclude [World σ] : Run σ Unit := do
  Run.within (Task.ask (World.stackChanged (← get).memory.stack))
  modify fun machine => { machine with steps := machine.steps + 1 }
  Run.within (Task.ask (World.stepped (← get).steps))
  let machine ← get
  if machine.maxSteps < machine.steps then Run.raise (.programTooLong machine.maxSteps)

/-- Execute the term `name` at the front of the program, before the terms `rest`. Gives the group of
what it names. -/
def dispatch [World σ] (again : Run σ Progress) (name : String) (rest : List String) :
    Run σ Category := do
  let machine ← get
  Run.trace (.stack machine.memory.stack)
  Run.trace (.pending machine.memory.pending)
  match machine.resolve name with
  | none => Run.raise (.unknownInstruction name)
  | some entry =>
    if holds entry.minDepth machine.memory.stack then
      modify fun machine => { machine with memory := { machine.memory with pending := rest } }
      Run.trace (.calling name)
      entry.perform again
      conclude
      return entry.category
    else
      Run.raise (.stackUnderflow name entry.minDepth machine.memory.stack.length)

/-- End the run with a fault. The fault is kept even if the run is already over. -/
def failWith (fault : Fault) : Run σ Progress := do
  modify fun machine => { machine with error := some fault }
  Run.fire .fail
  Run.emit (.log (.failed (← get).steps fault))
  return .failed

/-- Execute the next pending term, or complete the run if there is none. -/
def executeNext [World σ] (again : Run σ Progress) : Run σ Progress := do
  match (← get).memory.pending with
  | [] =>
    Run.fire .complete
    Run.emit (.log (.completed (← get).steps))
    return .finished
  | name :: rest =>
    match ← Run.attempt (dispatch again name rest) with
    | .ok category =>
      if category = .action then
        Run.fire .suspend
        return .paused
      else return .ongoing
    | .error (.fault fault) => failWith fault
    | .error (.failure failure) => failWith (.hostFailure failure true)
    | .error raised => throw raised

/-- One step, where `again` is the step that host scripts may take. -/
def stepWith [World σ] (again : Run σ Progress) : Run σ Progress := do
  match (← get).phase with
  | .completed => return .finished
  | .failed => return .failed
  | .suspended =>
    Run.fire .resume
    executeNext again
  | .running => executeNext again

/-- One step, in which host scripts may step the machine within each other to the given depth. -/
def stepAt [World σ] : Nat → Run σ Progress
  | 0 => throw (.failure .nestedTooDeeply)
  | depth + 1 => stepWith (stepAt depth)

/-- How deeply host scripts may step the machine within each other. -/
def nestingLimit : Nat := 10000

/-- One step. -/
def step [World σ] : Run σ Progress := stepAt nestingLimit

end Machine

end StackRover
