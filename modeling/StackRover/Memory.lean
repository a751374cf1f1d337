import StackRover.Block
import StackRover.Dice
import StackRover.Operation
import StackRover.World

/-!
# The memory of a machine

The part of a machine that its program works on: the stack, the pending terms, the definitions,
the dice, the world and the journal. A `Task` works on a memory and may raise something; what it
had done until then stays done.
-/

namespace StackRover

/-- What the program of a machine works on. -/
structure Memory (σ : Type) where
  /-- The values of the stack, its top first. -/
  stack : List Int := []
  /-- The terms still to be executed, the next one first. -/
  pending : List String := []
  definitions : Lexicon Definition := .empty
  dice : Dice
  world : σ
  /-- What was shown to the outside, the latest first. -/
  journal : List Event := []

/-- A computation on a memory that may raise something. -/
abbrev Task (σ α : Type) := EStateM Raised (Memory σ) α

namespace Task

variable {σ α : Type}

/-- Raise a fault. -/
def raise (fault : Fault) : Task σ α := throw (Raised.ofFault fault)

/-- The value of a computation that may end in a fault. -/
def ofExcept : Except Fault α → Task σ α
  | .ok value => pure value
  | .error fault => raise fault

/-- Enter an event into the journal. -/
def emit (event : Event) : Task σ Unit :=
  modify fun memory => { memory with journal := event :: memory.journal }

/-- Ask something of the world, and enter what it shows into the journal. -/
def ask (request : σ → Reply σ α) : Task σ α := fun memory =>
  let reply := request memory.world
  let after :=
    { memory with world := reply.world, journal := reply.events.reverse ++ memory.journal }
  match reply.result with
  | .ok value => .ok value after
  | .error raised => .error raised after

/-! ## The stack -/

/-- Push a value. -/
def push (value : Int) : Task σ Unit :=
  modify fun memory => { memory with stack := value :: memory.stack }

/-- Take the top value. -/
def pop : Task σ Int := fun memory =>
  match memory.stack with
  | value :: stack => .ok value { memory with stack := stack }
  | [] => .error (.failure .emptyStack) memory

/-- Replace the stack by its image; `none` stands for a stack that is not deep enough. -/
def rearrange (change : List Int → Option (List Int)) : Task σ Unit := fun memory =>
  match change memory.stack with
  | some stack => .ok () { memory with stack := stack }
  | none => .error (.failure .emptyStack) memory

/-! ## The pending terms -/

/-- Take the next pending term, on behalf of the named operation. -/
def nextTerm (name : String) : Task σ String := fun memory =>
  match memory.pending with
  | term :: pending => .ok term { memory with pending := pending }
  | [] => .error (Raised.ofFault (.emptyStream name)) memory

/-- Insert terms before the pending ones. -/
def splice (terms : List String) : Task σ Unit :=
  modify fun memory => { memory with pending := terms ++ memory.pending }

/-! ## The definitions -/

/-- Bind a name to terms. -/
def define (name : String) (body : List String) : Task σ Unit := do
  if (← get).definitions.contains name then emit (.log (.redefining name))
  modify fun memory => { memory with definitions := memory.definitions.insert ⟨name, body⟩ }

/-- Drop all definitions. -/
def forget : Task σ Unit := modify fun memory => { memory with definitions := .empty }

end Task

end StackRover
