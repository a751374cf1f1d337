import StackRover.Launch

/-!
# The executable

Reads the arguments, the settings, program files and the terminal, and plays back what the launch
shows, in order.
-/

namespace StackRover.Terminal

/-- Read a program file. -/
def readProgram (path : String) : IO (Except Failure String) := do
  try
    return .ok (← IO.FS.readFile path)
  catch
    | .inappropriateType _ code _ =>
      return .error (.unreadable (if code = 20 then .notFolder else .isFolder) path)
    | _ => return .error (.unreadable .missing path)

/-- Show the events to the user; messages of at least the given rank are logged. -/
def play (threshold : Nat) (events : List Event) : IO Unit := do
  let out ← IO.getStdout
  for event in events do
    match event with
    | .print text => out.putStr text
    | .log _ => IO.eprint (Journal.logText threshold [event])
    | .pause milliseconds =>
      out.flush
      IO.sleep milliseconds.toNat.toUInt32
    | .note _ => pure ()
  out.flush

/-- Report what was raised and not handled. -/
def reportRaised : Raised → IO UInt32
  | .fault fault => do
    IO.eprintln fault.message
    return 1
  | .failure failure => do
    IO.eprintln (failure.kind ++ ": " ++ failure.text)
    return 1
  | .interrupt _ => return 130
  | .exhausted => return 1

/-- Run on a machine, play back what it shows, and go on with its result. -/
def playRun {α : Type} (threshold : Nat) (run : Run Plane α) (machine : Machine Plane)
    (next : α → Machine Plane → IO UInt32) : IO UInt32 := do
  match run machine with
  | .ok value after =>
    let (events, rest) := after.takeJournal
    play threshold events
    next value rest
  | .error raised after =>
    play threshold after.takeJournal.1
    reportRaised raised

/-- Converse at the terminal up to the end of its input. -/
partial def converse (threshold : Nat) (machine : Machine Plane) : IO UInt32 :=
  playRun threshold Prompt.ask machine fun _ machine => do
    let line ← (← IO.getStdin).getLine
    if line.isEmpty then return 0
    let input := Input.line (Prompt.chomp line)
    playRun threshold (Prompt.respond Launch.promptDelay false input) machine fun goesOn machine =>
      if goesOn then converse threshold machine else return 0

end StackRover.Terminal

open StackRover StackRover.Terminal in
/-- Launch with the arguments, the settings and the terminal of the process. -/
def main (arguments : List String) : IO UInt32 := do
  let maxSteps ← IO.getEnv "STACKED_MAX_STEPS"
  let logLevel ← IO.getEnv "STACKED_LOG_LEVEL"
  let debug ← IO.getEnv "STACKED_DEBUG"
  let settings : Settings := { maxSteps, logLevel, debug }
  let dice := Dice.scrambled (← IO.rand 0 4294967295).toUInt64
  match settings.threshold with
  | .error failure => reportRaised (.failure failure)
  | .ok threshold =>
    let machine := Launch.machine settings dice
    match Invocation.ofArgs arguments, machine with
    | .prompt, .ok machine =>
      playRun threshold Prompt.greet machine fun _ machine => converse threshold machine
    | .program path, .ok machine => do
      let text ← readProgram path
      playRun threshold (Launch.runProgram text) machine fun code _ => return code.toUInt32
    | .prompt, .error failure | .program _, .error failure => reportRaised (.failure failure)
    | .console, _ | .unrecognised _, _ => do
      let transcript := Launch.transcript
        { arguments := arguments, settings := settings, dice := dice }
      IO.print transcript.out
      IO.eprint transcript.err
      match transcript.ending with
      | .exited code => return code.toUInt32
      | .raised raised => reportRaised raised
