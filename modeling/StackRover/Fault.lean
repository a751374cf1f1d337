import StackRover.Direction
import StackRover.Object
import StackRover.Phase
import StackRover.Text.Blank
import StackRover.Text.Quoted

/-!
# What can go wrong

A `Fault` is an error of the program being run. A `Failure` is an error of anything around it: of
the host, of the settings, of a request that the machine cannot carry out. A failure that happens
while a term is executed becomes the fault `hostFailure`. `Raised` is whatever interrupts an
execution, the user's interrupt included.

A fault is only raised if its message can be written: one that holds a number beyond the digit limit
turns into the failure `tooManyDigits` (`Raised.ofFault`).

* `Raised.ofFault_of_isWritable`: a fault whose numbers can be written is raised as it is.
-/

namespace StackRover

/-- Why a path leads to no file. -/
inductive PathTrouble where
  /-- There is nothing. -/
  | missing
  /-- The path goes on after a file. -/
  | notFolder
  /-- The path ends at a folder. -/
  | isFolder
  /-- The path, or a part of it, is too long. -/
  | tooLong
  deriving Repr, DecidableEq

namespace PathTrouble

/-- The kind of failure, as messages name it. -/
def kind : PathTrouble → String
  | missing => "FileNotFoundError"
  | notFolder => "NotADirectoryError"
  | isFolder => "IsADirectoryError"
  | tooLong => "OSError"

/-- The number and the wording of the trouble. -/
def text : PathTrouble → String
  | missing => "[Errno 2] No such file or directory"
  | notFolder => "[Errno 20] Not a directory"
  | isFolder => "[Errno 21] Is a directory"
  | tooLong => "[Errno 36] File name too long"

end PathTrouble

/-- An error of the host, of the settings or of the use of the machine. -/
inductive Failure where
  /-- The run cannot change its phase this way. -/
  | refused (transition : Transition) (phase : Phase)
  /-- A number has more digits than are converted; a numeral also tells how many. -/
  | tooManyDigits (digits : Option Nat)
  /-- A value was taken from an empty stack. -/
  | emptyStack
  /-- The host does not offer what was asked of it. -/
  | unimplemented
  /-- Host operations step the machine within each other too deeply. -/
  | nestedTooDeeply
  /-- A pause of less than no time. -/
  | negativePause
  /-- A setting is not a numeral. -/
  | badNumeral (text : String)
  /-- Names that are not those of built-in operations. -/
  | unknownOpcodes (names : List String)
  /-- A name that is not that of a log level. -/
  | unknownLevel (name : String)
  /-- A number that is not that of a direction. -/
  | unknownDirection (code : Int)
  /-- A program file that cannot be read. -/
  | unreadable (trouble : PathTrouble) (path : String)
  /-- A path with a null character in it. -/
  | nullInPath
  /-- An error of the host's own. -/
  | host (kind text : String)
  deriving Repr, DecidableEq

namespace Failure

/-- The kind of a failure, as messages name it. -/
def kind : Failure → String
  | refused .. => "TransitionNotAllowed"
  | tooManyDigits _ | badNumeral _ | unknownOpcodes _ | unknownLevel _ | unknownDirection _
  | negativePause | nullInPath => "ValueError"
  | emptyStack => "IndexError"
  | unimplemented => "NotImplementedError"
  | nestedTooDeeply => "RecursionError"
  | unreadable trouble _ => trouble.kind
  | host kind _ => kind

/-- How much of a quoted setting its message shows. -/
def numeralExcerpt : Nat := 200

/-- The message of a failure. -/
def text : Failure → String
  | refused transition phase =>
    "Can't " ++ transition.name ++ " when in " ++ phase.name ++ "."
  | tooManyDigits count =>
    let size :=
      match count with
      | none => ""
      | some digits => ": value has " ++ Text.decimal digits ++ " digits"
    "Exceeds the limit (" ++ Text.decimal Text.digitLimit ++
      " digits) for integer string conversion" ++ size ++
      "; use sys.set_int_max_str_digits() to increase the limit"
  | emptyStack => "pop from empty list"
  | unimplemented => ""
  | nestedTooDeeply => "maximum recursion depth exceeded"
  | negativePause => "sleep length must be non-negative"
  | badNumeral text =>
    "invalid literal for int() with base 10: " ++
      String.ofList ((Text.quote text).toList.take numeralExcerpt)
  | unknownOpcodes names => "unknown built-in opcodes: " ++ String.intercalate ", " names
  | unknownLevel name => "Unknown level: " ++ Text.quote name
  | unknownDirection code => Text.decimal code ++ " is not a valid Direction"
  | unreadable trouble path => trouble.text ++ ": " ++ Text.quote path
  | nullInPath => "embedded null byte"
  | host _ text => text

/-- A host's failure of the given kind, with what the host says about it. A missing key is named
between quotes. -/
def ofHost (kind : String) (detail : Option String) : Failure :=
  match detail with
  | none => host kind ""
  | some text => host kind (if kind == "KeyError" then Text.quote text else text)

end Failure

/-- An error that ends the run of a program. -/
inductive Fault where
  /-- A term that names neither a definition nor an operation. -/
  | unknownInstruction (token : String)
  /-- An operation that needs more values than the stack holds. -/
  | stackUnderflow (name : String) (required actual : Int)
  /-- A number to be pushed that is not a single digit. -/
  | outOfRange (value : Int)
  /-- A division by zero. -/
  | divideByZero (name : String)
  /-- Bounds of a random number with nothing between them. -/
  | invalidRange (minimum maximum : Int)
  /-- A block without its `END`. -/
  | unterminatedBlock
  /-- A run of more steps than allowed. -/
  | programTooLong (limit : Int)
  /-- An operation that needs another term where the program ends. -/
  | emptyStream (name : String)
  /-- A cell with an object that programs cannot tell apart. -/
  | unknownObject (object : Object) (x y : Int)
  /-- A failure outside the program; `chained` tells whether it happened during the run. -/
  | hostFailure (failure : Failure) (chained : Bool)
  /-- An error of which only the message is known. -/
  | other (message : String)
  deriving Repr, DecidableEq

namespace Fault

/-- The message of a fault. -/
def message : Fault → String
  | unknownInstruction token => "unknown instruction: " ++ token
  | stackUnderflow name required actual =>
    "tried to call " ++ name ++ " on a stack of size " ++ Text.decimal actual ++ " < " ++
      Text.decimal required
  | outOfRange value =>
    "tried to push " ++ Text.decimal value ++ " to the stack, outside the range 0-9"
  | divideByZero name => "tried to call " ++ name ++ " with zero divisor"
  | invalidRange minimum maximum =>
    "tried to call RAND with max <= min (min=" ++ Text.decimal minimum ++ ", max=" ++
      Text.decimal maximum ++ ")"
  | unterminatedBlock => "could not find closing END term"
  | programTooLong limit =>
    "maximum program length exceeded (" ++ Text.decimal limit ++ " steps)"
  | emptyStream name => name ++ " expected another term but the program ended"
  | unknownObject object x y =>
    "unknown object type at (" ++ Text.decimal x ++ "," ++ Text.decimal y ++ "): " ++ object.text
  | hostFailure failure _ => "host failure: " ++ failure.kind ++ ": " ++ failure.text
  | other message => message

/-- The numbers that the message shows. -/
def numbers : Fault → List Int
  | stackUnderflow _ required actual => [required, actual]
  | outOfRange value => [value]
  | invalidRange minimum maximum => [minimum, maximum]
  | programTooLong limit => [limit]
  | unknownObject (.number value) x y => [x, y, value]
  | unknownObject _ x y => [x, y]
  | _ => []

/-- Whether all numbers of the message can be written. -/
def isWritable (fault : Fault) : Bool := fault.numbers.all Text.isWritable

end Fault

/-- What interrupts an execution. -/
inductive Raised where
  /-- An error of the program. -/
  | fault (fault : Fault)
  /-- An error around the program. -/
  | failure (failure : Failure)
  /-- The user's interrupt, with what it says. -/
  | interrupt (text : String)
  /-- The allowance of a driving loop is used up before the run has ended. -/
  | exhausted
  deriving Repr, DecidableEq

/-- Raise a fault, or the failure to write its message. -/
def Raised.ofFault (f : Fault) : Raised :=
  if f.isWritable then .fault f else .failure (.tooManyDigits none)

/-- A fault whose numbers can be written is raised as it is. -/
theorem Raised.ofFault_of_isWritable {f : Fault} (h : f.isWritable = true) :
    Raised.ofFault f = .fault f := by
  simp [Raised.ofFault, h]

/-- The direction with the given number, or the failure to find one. -/
def Direction.ofCode (n : Int) : Except Failure Direction :=
  match Direction.ofCode? n with
  | some d => .ok d
  | none => .error (.unknownDirection n)

end StackRover
