import StackRover.Memory

/-!
# The effects of the built-in operations

Each built-in operation is a task on the memory of a machine. The machine makes sure beforehand that
the stack is as deep as `Builtin.minDepth` asks for.

* `Builtin.perform`: what a built-in operation does.
-/

namespace StackRover.Builtin

variable {σ : Type}

/-- Push the single-digit number that the next term denotes. -/
def pushLiteral : Task σ Unit := do
  let term ← Task.nextTerm "PUSH"
  match Text.readLiteral term with
  | .malformed => Task.raise (.unknownInstruction term)
  | .tooLong digits => throw (.failure (.tooManyDigits (some digits)))
  | .value value =>
    if 0 ≤ value ∧ value ≤ 9 then Task.push value else Task.raise (.outOfRange value)

/-- Replace the top two values `a`, `b` by `f a b`, where `b` is the topmost. -/
def combine (f : Int → Int → Int) : Task σ Unit :=
  Task.rearrange fun
    | b :: a :: stack => some (f a b :: stack)
    | _ => none

/-- Like `combine`, but with a fault if the topmost value is zero. -/
def divide (name : String) (f : Int → Int → Int) : Task σ Unit := do
  if (← get).stack.head? = some 0 then Task.raise (.divideByZero name)
  combine f

/-- Replace the bounds on the stack, the upper one on top, by a random number between them. -/
def roll : Task σ Unit := do
  let maximum ← Task.pop
  let minimum ← Task.pop
  if maximum ≤ minimum then Task.raise (.invalidRange minimum maximum)
  let dice := (← get).dice
  modify fun memory => { memory with dice := dice.rolledFor minimum maximum }
  Task.push (dice.face minimum maximum)

/-- Replace the block of an `IF` by the arm that the top value selects. -/
def choose : Task σ Unit := do
  let arms ← Task.ofExcept (Block.Arms.split (← get).pending)
  let condition ← Task.pop
  modify fun memory => { memory with pending := memory.pending.drop (arms.close + 1) }
  Task.splice (if condition ≠ 0 then arms.onTrue else arms.onFalse)

/-- Take a name and a block from the pending terms, and bind the one to the other. -/
def bind : Task σ Unit := do
  let name ← Task.nextTerm "DEF"
  let close ← Task.ofExcept (Block.closing (← get).pending)
  let body := (← get).pending.take close
  modify fun memory => { memory with pending := memory.pending.drop (close + 1) }
  Task.define name body

/-- Move the player in the direction that the top value names, if it names one. -/
def moveByCode [World σ] : Task σ Unit := do
  let code ← Task.pop
  match Direction.ofCode? code with
  | some direction => Task.ask (World.move direction)
  | none => pure ()

/-- Look at the neighbouring cell in the given direction, and push what is there. -/
def inspect [World σ] (direction : Direction) : Task σ Unit := do
  let here ← Task.ask fun (world : σ) => World.position world
  let cell := here.toward direction
  let object ← Task.ask (World.lookAt cell)
  match object.code? with
  | some code => Task.push code
  | none => Task.raise (.unknownObject object cell.x cell.y)

/-- Look in the direction that the top value names, if it names a proper one. -/
def lookByCode [World σ] : Task σ Unit := do
  let code ← Task.pop
  match Direction.ofCode? code with
  | none | some .stay => pure ()
  | some direction => inspect direction

/-- What a built-in operation does. -/
def perform [World σ] : Builtin → Task σ Unit
  | push => pushLiteral
  | pop => Task.rearrange fun
    | _ :: stack => some stack
    | _ => none
  | dup => Task.rearrange fun
    | a :: stack => some (a :: a :: stack)
    | _ => none
  | swap => Task.rearrange fun
    | b :: a :: stack => some (a :: b :: stack)
    | _ => none
  | rot3 => Task.rearrange fun
    | c :: b :: a :: stack => some (a :: c :: b :: stack)
    | _ => none
  | add => combine (· + ·)
  | sub => combine (· - ·)
  | mul => combine (· * ·)
  | div => divide "DIV" Int.fdiv
  | mod => divide "MOD" Int.tmod
  | rand => roll
  | branch => choose
  | define => bind
  | move => moveByCode
  | go direction => Task.ask (World.move direction)
  | look => lookByCode

end StackRover.Builtin
