import StackRover.Machine.Drive

/-!
# Working by hand

Direct access to the stack and the definitions of a machine between two runs.
-/

namespace StackRover.Machine

variable {σ : Type}

/-- The top value, if there is one. -/
def top? (machine : Machine σ) : Option Int := machine.memory.stack.head?

/-- The machine without the top value of its stack. -/
def dropTop (machine : Machine σ) : Machine σ :=
  { machine with memory := { machine.memory with stack := machine.memory.stack.tail } }

/-- Run a program text on the current stack. -/
def executeHere [World σ] (text : String) : Run σ (List Int) := do
  execute text (← get).memory.stack

/-- Bind a name to the terms of a program text. -/
def defineText (name text : String) : Run σ Unit :=
  Run.within (Task.define name (Program.tokenize text))

end StackRover.Machine
