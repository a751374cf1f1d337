import StackRover.Fault

/-!
# The journal

Everything a run shows to the outside is an `Event`: a log message, printed text, a pause, or a note
of a host operation. A message is kept as what it reports; `Message.text?` words it, and has no
result where a number is too long to be written.
-/

namespace StackRover

/-- How serious a log message is. -/
inductive Level where
  | debug
  | info
  | warning
  | error
  | critical
  deriving Repr, DecidableEq

namespace Level

/-- The name of the level. -/
def name : Level → String
  | debug => "DEBUG"
  | info => "INFO"
  | warning => "WARNING"
  | error => "ERROR"
  | critical => "CRITICAL"

/-- The rank of the level: the greater, the more serious. -/
def rank : Level → Nat
  | debug => 10
  | info => 20
  | warning => 30
  | error => 40
  | critical => 50

/-- The least rank that a configured level name lets through. -/
def threshold? : String → Option Nat
  | "CRITICAL" | "FATAL" => some critical.rank
  | "ERROR" => some error.rank
  | "WARN" | "WARNING" => some warning.rank
  | "INFO" => some info.rank
  | "DEBUG" => some debug.rank
  | "NOTSET" => some 0
  | _ => none

end Level

/-- A log message, as what it reports. -/
inductive Message where
  /-- A program of so many terms starts. -/
  | started (terms : Nat)
  /-- The program has completed. -/
  | completed (steps : Nat)
  /-- The program has failed. -/
  | failed (steps : Nat) (fault : Fault)
  /-- The stack before a term is executed, its top first. -/
  | stack (values : List Int)
  /-- The pending terms before one is executed. -/
  | pending (terms : List String)
  /-- A term is executed. -/
  | calling (name : String)
  /-- A definition replaces an earlier one. -/
  | redefining (name : String)
  /-- A move was stopped by a block. -/
  | blocked (direction : Direction) (target : Position)
  /-- A move has ended at a position. -/
  | moved (direction : Direction) (position : Position)
  deriving Repr, DecidableEq

/-- The text of a position. -/
def Position.text? (p : Position) : Option String := do
  let x ← Text.decimal? p.x
  let y ← Text.decimal? p.y
  return "(" ++ x ++ ", " ++ y ++ ")"

namespace Message

/-- The level at which the message is logged. -/
def level : Message → Level
  | started _ | completed _ | blocked .. | moved .. => .info
  | failed .. => .warning
  | stack _ | pending _ | calling _ | redefining _ => .debug

/-- The part of the system that the message comes from. -/
def source : Message → String
  | redefining _ => "stacked.compiler"
  | blocked .. | moved .. => "stacked.environment"
  | _ => "stacked.engine"

/-- The wording of a move that has ended at a position. -/
def movedText? (direction : Direction) (position : Position) : Option String :=
  position.text?.map (fun p => "move " ++ direction.label ++ " -> " ++ p)

/-- The wording of the message. -/
def text? : Message → Option String
  | started terms => some ("running program of " ++ Text.decimal terms ++ " terms")
  | completed steps => some ("program completed after " ++ Text.decimal steps ++ " steps")
  | failed steps fault =>
    some ("program failed after " ++ Text.decimal steps ++ " steps: " ++ fault.message)
  | stack values =>
    (values.reverse.mapM Text.decimal?).map (fun items => "Stack: " ++ Text.bracketed items)
  | pending terms => some ("Instructions: " ++ Text.bracketed (terms.map Text.quote))
  | calling name => some ("calling " ++ name)
  | redefining name => some ("redefining " ++ name)
  | blocked direction target =>
    target.text?.map (fun p => "move " ++ direction.label ++ " blocked at " ++ p)
  | moved direction position => movedText? direction position

end Message

/-- What a host operation writes down. -/
inductive Note where
  /-- A term taken from the program. -/
  | term (term : String)
  /-- The result of a nested step. -/
  | progress (progress : Progress)
  /-- The machine as it was seen. -/
  | sighting (text : String) (depth pending steps : Nat) (phase : Phase)
  deriving Repr, DecidableEq

/-- What a run shows to the outside. -/
inductive Event where
  /-- A log message. -/
  | log (message : Message)
  /-- Text on the standard output. -/
  | print (text : String)
  /-- A pause of so many milliseconds. -/
  | pause (milliseconds : Int)
  /-- A note of a host operation. -/
  | note (note : Note)
  deriving Repr, DecidableEq

/-- A line of text on the standard output. -/
def Event.line (text : String) : Event := .print (text ++ "\n")

/-! ## Reading a journal

A journal lists its events oldest first. -/

namespace Journal

/-- The text printed by the events. -/
def printed (events : List Event) : String :=
  String.join (events.filterMap fun
    | .print text => some text
    | _ => none)

/-- The number of pauses among the events. -/
def pauses (events : List Event) : Nat :=
  events.countP fun
    | .pause _ => true
    | _ => false

/-- The notes among the events. -/
def notes (events : List Event) : List Note :=
  events.filterMap fun
    | .note note => some note
    | _ => none

/-- The log messages among the events, with their wording; a message that cannot be worded is
left out. -/
def messages (events : List Event) : List (Message × String) :=
  events.filterMap fun
    | .log message => message.text?.map (message, ·)
    | _ => none

/-- The log as lines of text, with the messages whose level has at least the given rank. -/
def logText (threshold : Nat) (events : List Event) : String :=
  String.join ((messages events).filterMap fun (message, text) =>
    if threshold ≤ message.level.rank then
      some (message.level.name ++ ":" ++ message.source ++ ":" ++ text ++ "\n")
    else none)

end Journal

end StackRover
