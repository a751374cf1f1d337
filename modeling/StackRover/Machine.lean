import StackRover.Builtin.Effect
import StackRover.Program

/-!
# Machines

A machine has a memory, the operations that are active, its limits, and the state of the current
run. A `Run` is a computation on a machine that may raise something; what it had done until then
stays done.

* `Machine.resolve`: what a term names; definitions come before operations.
* `Machine.load`: a new run; definitions survive it.
* `Machine.holds_iff`: how deep a stack has to be.
-/

namespace StackRover

/-- A machine in a world. -/
structure Machine (σ : Type) where
  memory : Memory σ
  /-- The operations that programs may use. -/
  operations : Lexicon Operation
  /-- The number of steps that a run may take. -/
  maxSteps : Int
  /-- Whether every term is logged. -/
  debug : Bool
  /-- The number of terms executed in the current run. -/
  steps : Nat := 0
  /-- What the current run has failed with. -/
  error : Option Fault := none
  phase : Phase := .running

/-- A computation on a machine that may raise something. -/
abbrev Run (σ α : Type) := EStateM Raised (Machine σ) α

namespace Machine

variable {σ : Type}

/-- The active operation with the given name. -/
def lookup (machine : Machine σ) (name : String) : Option Operation :=
  machine.operations.find? name

/-- What a term names. Definitions come first, so that they can stand in for operations. -/
def resolve (machine : Machine σ) (name : String) : Option Entry :=
  match machine.memory.definitions.find? name with
  | some definition => some (.definition definition)
  | none => (machine.lookup name).map .operation

/-- Add an operation of the host, in the place of an active one of the same name. -/
def addOperation (machine : Machine σ) (operation : Operation) : Machine σ :=
  { machine with operations := machine.operations.insert operation }

/-- Start a new run over the terms with the given stack. Definitions survive. -/
def load (machine : Machine σ) (terms : List String) (stack : List Int) : Machine σ :=
  let memory := machine.memory
  { machine with
    memory :=
      { memory with
        stack := stack
        pending := terms
        journal :=
          if terms.isEmpty then memory.journal
          else .log (.started terms.length) :: memory.journal }
    steps := 0
    error := none
    phase := .running }

/-- Push values one after the other. -/
def pushAll (machine : Machine σ) (values : List Int) : Machine σ :=
  { machine with
    memory := { machine.memory with stack := values.reverse ++ machine.memory.stack } }

/-- Whether the stack holds so many values. Looks no deeper than it has to. -/
def holds (depth : Int) (stack : List Int) : Bool :=
  depth ≤ 0 || !(stack.drop (depth.toNat - 1)).isEmpty

theorem holds_iff (depth : Int) (stack : List Int) :
    holds depth stack = true ↔ depth ≤ stack.length := by
  simp only [holds, Bool.or_eq_true, decide_eq_true_eq, Bool.not_eq_true',
    List.isEmpty_eq_false_iff, ne_eq, List.drop_eq_nil_iff, Nat.not_le]
  omega

/-- Take the journal out of the machine; its events come oldest first. -/
def takeJournal (machine : Machine σ) : List Event × Machine σ :=
  (machine.memory.journal.reverse,
    { machine with memory := { machine.memory with journal := [] } })

end Machine

namespace Run

variable {σ α : Type}

/-- Work on the memory of the machine. -/
def within (task : Task σ α) : Run σ α := fun machine =>
  match task machine.memory with
  | .ok value memory => .ok value { machine with memory := memory }
  | .error raised memory => .error raised { machine with memory := memory }

/-- Raise a fault. -/
def raise (fault : Fault) : Run σ α := throw (Raised.ofFault fault)

/-- Enter an event into the journal. -/
def emit (event : Event) : Run σ Unit := within (Task.emit event)

/-- Print a line. -/
def say (text : String) : Run σ Unit := emit (.line text)

/-- Log a message if every term is to be logged. -/
def trace (message : Message) : Run σ Unit := do
  if (← get).debug then emit (.log message)

/-- Hand over what a computation raises as a value. -/
def attempt (run : Run σ α) : Run σ (Except Raised α) := fun machine =>
  match run machine with
  | .ok value after => .ok (.ok value) after
  | .error raised after => .ok (.error raised) after

/-- Change the phase of the run. -/
def fire (transition : Transition) : Run σ Unit := fun machine =>
  match machine.phase.next? transition with
  | some phase => .ok () { machine with phase := phase }
  | none => .error (.failure (.refused transition machine.phase)) machine

end Run

end StackRover
