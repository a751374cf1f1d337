import StackRover.Journal
import StackRover.Text.Case

/-!
# Settings

Limits and logging are set through variables of the process. An absent variable has a default; of
the three settings only the limit of steps can be malformed.
-/

namespace StackRover

/-- The variables that hold settings, as far as they are set. -/
structure Settings where
  maxSteps : Option String := none
  logLevel : Option String := none
  debug : Option String := none
  deriving Repr, DecidableEq

namespace Settings

/-- The variables of a process, from its values by name. -/
def ofLookup (lookup : String → Option String) : Settings where
  maxSteps := lookup "STACKED_MAX_STEPS"
  logLevel := lookup "STACKED_LOG_LEVEL"
  debug := lookup "STACKED_DEBUG"

/-- The limit of steps where none is set. -/
def defaultMaxSteps : Int := 1000000

/-- The number of steps that a run may take. -/
def stepLimit (settings : Settings) : Except Failure Int :=
  match settings.maxSteps with
  | none => .ok defaultMaxSteps
  | some text =>
    match Text.readSetting text with
    | .value n => .ok n
    | .tooLong digits => .error (.tooManyDigits (some digits))
    | .malformed => .error (.badNumeral text)

/-- The name of the log level. -/
def level (settings : Settings) : String :=
  match settings.logLevel with
  | none => "WARNING"
  | some text => Text.upper (Text.strip text)

/-- Whether every term is logged. -/
def debugging (settings : Settings) : Bool :=
  match settings.debug with
  | none => false
  | some text => ["1", "true", "yes"].contains (Text.lower (Text.strip text))

/-- The least rank of the messages that are logged. -/
def threshold (settings : Settings) : Except Failure Nat :=
  match Level.threshold? settings.level with
  | some rank => .ok rank
  | none => .error (.unknownLevel settings.level)

end Settings

end StackRover
