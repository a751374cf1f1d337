import StackRover.Direction

/-!
# Built-in operations

The operations that every machine knows, with their names, their groups, the depth of stack that
they need and what the reference says about them.

* `Builtin.all`: the built-in operations, in the order in which they are listed.
* `Builtin.name_injective`: no two of them share a name.
-/

namespace StackRover

/-- The groups that operations are listed in. -/
inductive Category where
  | stack
  | mathematical
  | flow
  | action
  | sensing
  | custom
  | special
  deriving Repr, DecidableEq

/-- The name of the group. -/
def Category.name : Category → String
  | stack => "stack"
  | mathematical => "mathematical"
  | flow => "flow"
  | action => "action"
  | sensing => "sensing"
  | custom => "custom"
  | special => "special"

/-- The built-in operations. -/
inductive Builtin where
  | push
  | pop
  | dup
  | swap
  | rot3
  | add
  | sub
  | mul
  | div
  | mod
  | rand
  | branch
  | define
  | move
  /-- The move in a fixed direction; `stay` waits for a turn. -/
  | go (direction : Direction)
  | look
  deriving Repr, DecidableEq

namespace Builtin

/-- The term that names the operation. -/
def name : Builtin → String
  | push => "PUSH"
  | pop => "POP"
  | dup => "DUP"
  | swap => "SWAP"
  | rot3 => "ROT3"
  | add => "ADD"
  | sub => "SUB"
  | mul => "MUL"
  | div => "DIV"
  | mod => "MOD"
  | rand => "RAND"
  | branch => "IF"
  | define => "DEF"
  | move => "MOVE"
  | go .left => "LEFT"
  | go .up => "UP"
  | go .right => "RIGHT"
  | go .down => "DOWN"
  | go .stay => "WAIT"
  | look => "LOOK"

/-- The group of the operation. -/
def category : Builtin → Category
  | push | pop | dup | swap | rot3 => .stack
  | add | sub | mul | div | mod | rand => .mathematical
  | branch => .flow
  | define => .custom
  | move | go _ => .action
  | look => .sensing

/-- How many values the operation needs on the stack. -/
def minDepth : Builtin → Nat
  | push | define | go _ => 0
  | pop | dup | branch | move | look => 1
  | swap | add | sub | mul | div | mod | rand => 2
  | rot3 => 3

/-- What the reference says about the operation. -/
def description : Builtin → String
  | push => "Push a single-digit number onto the stack."
  | pop => "Pop the top value off the stack."
  | dup => "Duplicate the value on top of the stack."
  | swap => "Swap the 2 values on top of the stack."
  | rot3 => "Pop the 3rd value on the stack and put it on top."
  | add => "Pop the top 2 values off the stack and push their sum to the top."
  | sub => "Pop the top 2 values off the stack and push their difference to the top."
  | mul => "Pop the top 2 values off the stack and push their product to the top."
  | div =>
    "Pop the top 2 values off the stack and push their quotient (floor(a/b)) to the top."
  | mod =>
    "Pop the top 2 values off the stack and push their modulus (a % b) to the top."
  | rand =>
    "Pop the top 2 values (max, min) off the stack, generate a random number x such that " ++
      "min <= x < max, and push it to the stack."
  | branch =>
    "Pop the top value off the stack. If it is non-zero, insert the given instructions at the " ++
      "current location in the program. If not, and if an \"else\" clause is given, insert " ++
      "those commands instead."
  | define =>
    "Define a custom function with the given name. Whenever the program finds this instruction " ++
      "it will replace it with the given terms."
  | move =>
    "Pop the top value off the stack and move the player according to its value. If 0, rest. " ++
      "Otherwise move one of the 4 cardinal directions (1=up, 2=right, 3=down, 4=left) if " ++
      "possible. If the top value is not in the range 0-4, do nothing."
  | go .left => "Move left, if possible."
  | go .up => "Move up, if possible."
  | go .right => "Move right, if possible."
  | go .down => "Move down, if possible."
  | go .stay => "Wait for 1 turn."
  | look =>
    "Pop a value off the stack, look at the adjacent cell corresponding to that direction (same " ++
      "as the MOVE command) and see what's there. A value will be pushed to the stack depending " ++
      "on the content of the adjacent cell (0 = empty, 1 = block, 2 = exit, 3 = spike, " ++
      "-1 = outside the grid limits)."

/-- How the operation is written in a program. -/
def usage : Builtin → String
  | push => "PUSH <value>"
  | branch => "IF <terms> END | IF <terms> ELSE <terms> END"
  | define => "DEF <name> <terms> END"
  | builtin => builtin.name

/-- The built-in operations, in the order in which they are listed. -/
def all : List Builtin :=
  [push, pop, dup, swap, rot3, add, sub, mul, div, mod, rand, branch, define, move, go .left,
    go .up, go .right, go .down, go .stay, look]

theorem mem_all (builtin : Builtin) : builtin ∈ all := by
  cases builtin with
  | go direction => cases direction <;> simp [all]
  | _ => simp [all]

/-- The built-in operation that a term names. -/
def ofName? (name : String) : Option Builtin := all.find? (fun builtin => builtin.name == name)

@[simp] theorem ofName?_name (builtin : Builtin) : ofName? builtin.name = some builtin := by
  cases builtin with
  | go direction => cases direction <;> decide
  | _ => decide

/-- No two built-in operations share a name. -/
theorem name_injective {a b : Builtin} (h : a.name = b.name) : a = b := by
  have ha := ofName?_name a
  rw [h, ofName?_name b] at ha
  exact (Option.some.inj ha).symm

end Builtin

end StackRover
