import StackRover.Display
import StackRover.Machine.Drive
import StackRover.Machine.Reference
import StackRover.Text.Case

/-!
# The prompt

An interactive session reads one line after the other. A line is a command or program text; programs
run on the stack that the line before has left, and definitions stay. Faults are printed, and an
interrupt only ends the current line.

* `Command.ofLine`: what a line asks for.
* `Prompt.respond`: the response to one input.
* `Prompt.session`: a session over all inputs.
-/

namespace StackRover

/-- What the user does at the prompt. -/
inductive Input where
  /-- A line of text, without its end. -/
  | line (text : String)
  /-- The interrupt key. -/
  | interrupt
  deriving Repr, DecidableEq

/-- What a line asks for. -/
inductive Command where
  /-- End the session. -/
  | bye
  /-- Clear the stack. -/
  | abort
  /-- Show the stack. -/
  | showStack
  /-- List the terms. -/
  | listWords
  /-- Show the reference text for a name. -/
  | see (name : String)
  /-- Run the line as a program. -/
  | program
  deriving Repr, DecidableEq

/-- What a line asks for. Commands may be written in any case, with blanks around. -/
def Command.ofLine (line : String) : Command :=
  let command := Text.strip line
  let lowered := Text.lower command
  if lowered = "bye" then .bye
  else if lowered = "abort" then .abort
  else if lowered = "stack" ∨ lowered = ".s" then .showStack
  else if lowered = "words" then .listWords
  else if "see ".toList.isPrefixOf lowered.toList then
    .see (Text.strip (String.ofList (command.toList.drop 4)))
  else .program

namespace Prompt

variable {σ : Type}

/-- Whether the character ends a line of a terminal. -/
def isLineEnd (c : Char) : Bool := c == '\r' || c == '\n'

/-- A line without the line ends that a terminal may leave at its end. -/
def chomp (text : String) : String :=
  String.ofList (text.toList.reverse.dropWhile isLineEnd).reverse

/-- What the session starts with. -/
def greet : Run σ Unit := do
  Run.say "Stacked interpreter"
  Run.say "Type 'bye' to quit, 'words' for the opcode list"
  Run.say ""

/-- Ask for a line. -/
def ask : Run σ Unit := Run.emit (.print "OK> ")

/-- Respond to an interrupt. -/
def interrupted : Run σ Unit := Run.say "\n(Ctrl+C) Type 'bye' to quit"

/-- List the terms by category. -/
def listWords : Run σ Unit := do
  for group in (← get).groups do
    Run.say (group.category.name ++ ": " ++ String.intercalate " " (group.items.map Prod.fst))

/-- Run a line as a program on the current stack, then show the stack. -/
def runLine [World σ] (delay : Int) (line : String) : Run σ Unit := do
  match ← Run.attempt (Machine.runPaced delay line (← get).memory.stack) with
  | .ok _ => Machine.showStack
  | .error (.fault fault) =>
    Run.say ("Error: " ++ fault.message)
    Machine.showStack
  | .error (.interrupt _) => interrupted
  | .error raised => throw raised

/-- Respond to a line. Gives whether the session goes on. -/
def respondTo [World σ] (delay : Int) (line : String) : Run σ Bool := do
  match Command.ofLine line with
  | .bye => return false
  | .abort =>
    modify fun machine => { machine with memory := { machine.memory with stack := [] } }
    Run.say "Stack cleared"
  | .showStack => Machine.showStack
  | .listWords => listWords
  | .see name => Run.say ((← get).describe name)
  | .program => runLine delay line
  return true

/-- Respond to what the user does. Gives whether the session goes on. -/
def respond [World σ] (delay : Int) (chomps : Bool) : Input → Run σ Bool
  | .interrupt => do
    interrupted
    return true
  | .line text => respondTo delay (if chomps then chomp text else text)

/-- Ask for and respond to one input after the other, up to the end of the inputs or of the
session. -/
def converse [World σ] (delay : Int) (chomps : Bool) : List Input → Run σ Unit
  | [] => ask
  | input :: inputs => do
    ask
    if ← respond delay chomps input then converse delay chomps inputs

/-- A session over the inputs, with a pause of the given milliseconds after every turn. Line ends
left in the inputs are dropped if `chomps` is set. -/
def session [World σ] (delay : Int) (chomps : Bool) (inputs : List Input) : Run σ Unit := do
  greet
  converse delay chomps inputs

end Prompt

end StackRover
