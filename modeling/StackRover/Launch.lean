import StackRover.Folder
import StackRover.Machine.Setup
import StackRover.Prompt
import StackRover.World.Plane

/-!
# The command line

The program starts a session at the prompt, runs a program file, or offers a console. It works on an
open plane that prints every move.

* `Invocation.ofArgs`: what the arguments ask for.
* `Launch.transcript`: everything that a launch with known files and inputs does.
-/

namespace StackRover

/-- What the arguments ask for. -/
inductive Invocation where
  /-- A session at the prompt. -/
  | prompt
  /-- The run of a program file. -/
  | program (path : String)
  /-- A console; nothing is typed into it. -/
  | console
  /-- Something unknown. -/
  | unrecognised (argument : String)
  deriving Repr, DecidableEq

/-- What the arguments ask for; only the first one counts. -/
def Invocation.ofArgs : List String → Invocation
  | [] => .console
  | argument :: _ =>
    if argument = "repl" then .prompt
    else if ".stk".toList.isSuffixOf argument.toList then .program argument
    else .unrecognised argument

namespace Launch

/-- The pause after every turn of a session at the prompt, in milliseconds. -/
def promptDelay : Int := 200

/-- How the program is used. -/
def usage : String :=
  "\nStacked - stack-based instruction interpreter\n\nUsage:\n" ++
    "1. Interactive REPL: python main.py repl\n" ++
    "2. Run a program file: python main.py program.stk\n" ++
    "3. Python console with an interpreter as 'vm': python main.py\n"

/-- What the console starts with. -/
def greeting : String :=
  "Interpreter created as 'vm'\n" ++
    "  vm.execute('PUSH 2 PUSH 3 ADD')   # [5]\n" ++
    "  vm.repl()                        # interactive REPL\n" ++
    "\n"

/-- The prompt of the console. -/
def consolePrompt : String := ">>> "

/-- What the console ends with. -/
def farewell : String := "\nnow exiting InteractiveConsole...\n"

/-- The machine of a launch. -/
def machine (settings : Settings) (dice : Dice) : Except Failure (Machine Plane) :=
  Machine.create { echo := true } { settings := settings, dice := dice }

/-- Run a program and print its stack or its error. Gives the exit code. -/
def runProgram (text : Except Failure String) : Run Plane Nat := do
  match text with
  | .error failure => throw (.failure failure)
  | .ok text =>
    match ← Run.attempt (Machine.runPaced 0 text []) with
    | .ok _ =>
      Machine.showStack
      return 0
    | .error (.fault fault) =>
      Run.say ("Error: " ++ fault.message)
      return 1
    | .error raised => throw raised

/-- Hold a session at the prompt. Gives the exit code. -/
def holdSession (inputs : List Input) : Run Plane Nat := do
  Prompt.session promptDelay false inputs
  return 0

/-- The message for an unknown argument. -/
def complaint (argument : String) : String :=
  "Unrecognised argument: " ++ argument ++ "\n" ++ usage ++ "\n"

/-- How a launch ends. -/
inductive Ending where
  /-- With an exit code. -/
  | exited (code : Nat)
  /-- With something that was raised. -/
  | raised (raised : Raised)
  deriving Repr, DecidableEq

/-- Everything that a launch does. -/
structure Transcript where
  ending : Ending
  /-- The text on the standard output. -/
  out : String := ""
  /-- The text on the standard error. -/
  err : String := ""
  /-- The number of pauses. -/
  pauses : Nat := 0
  deriving Repr, DecidableEq

/-- The transcript of a run on a new machine; messages of at least the given rank are logged. -/
def Transcript.ofRun (threshold : Nat) (machine : Except Failure (Machine Plane))
    (run : Run Plane Nat) : Transcript :=
  match machine with
  | .error failure => { ending := .raised (.failure failure) }
  | .ok machine =>
    let (ending, after) :=
      match run machine with
      | .ok code after => (Ending.exited code, after)
      | .error raised after => (Ending.raised raised, after)
    let events := after.takeJournal.1
    { ending := ending
      out := Journal.printed events
      err := Journal.logText threshold events
      pauses := Journal.pauses events }

/-- What a launch depends on. -/
structure Situation where
  arguments : List String
  /-- The files beside the program. -/
  folder : Folder := {}
  inputs : List Input := []
  settings : Settings := {}
  dice : Dice := .cycling #[]

/-- Everything that a launch does. -/
def transcript (situation : Situation) : Transcript :=
  match situation.settings.threshold with
  | .error failure => { ending := .raised (.failure failure) }
  | .ok threshold =>
    let machine := machine situation.settings situation.dice
    match Invocation.ofArgs situation.arguments with
    | .prompt => .ofRun threshold machine (holdSession situation.inputs)
    | .program path => .ofRun threshold machine (runProgram (situation.folder.read path))
    | .unrecognised argument => { ending := .exited 2, out := complaint argument }
    | .console =>
      match machine with
      | .error failure => { ending := .raised (.failure failure), out := greeting }
      | .ok _ => { ending := .exited 0, out := greeting ++ consolePrompt, err := farewell }

end Launch

end StackRover
