import StackRover.Text.Decimal

/-!
# Objects on the grid

What a host reports about a cell. Hosts name the kind of object; a careless host may report nothing,
a truth value or a number, which no program understands.

* `Object.code?`: the number that a program gets for a kind of object it can tell apart.
-/

namespace StackRover

/-- The report of a host about a cell. -/
inductive Object where
  /-- An object of the named kind. -/
  | kind (name : String)
  /-- No answer. -/
  | nothing
  /-- A truth value. -/
  | flag (value : Bool)
  /-- A number. -/
  | number (value : Int)
  deriving Repr, DecidableEq

namespace Object

/-- A cell with nothing on it. -/
def empty : Object := kind "empty"

/-- A cell that cannot be entered. -/
def block : Object := kind "block"

/-- How the report is shown in messages. -/
def text : Object → String
  | kind name => name
  | nothing => "None"
  | flag true => "True"
  | flag false => "False"
  | number value => Text.decimal value

/-- Whether the kind is that of a pushable object, of any sort. -/
def isPushable (name : String) : Bool := "push".toList.isPrefixOf name.toList

/-- The number that stands for the object on the stack of a program. Pushable objects count as
empty; of the others only five kinds are known. -/
def code? : Object → Option Int
  | kind "empty" => some 0
  | kind "block" => some 1
  | kind "exit" => some 2
  | kind "spike" => some 3
  | kind "outside" => some (-1)
  | kind name => if isPushable name then some 0 else none
  | _ => none

end Object

end StackRover
