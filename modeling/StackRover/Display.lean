import StackRover.Machine

/-!
# Showing the stack

The stack is shown oldest value first. A deep stack shows only its topmost values, with an
ellipsis in place of the others.
-/

namespace StackRover

/-- What stands for the values that are not shown. -/
def ellipsis : String := "..."

/-- At most `limit` items, the ellipsis included; the oldest ones give way. A limit below two leaves
no place beside the ellipsis: then all items but the first `1 - limit` follow it. -/
def shorten (limit : Int) (items : List String) : List String :=
  if limit < items.length then
    ellipsis ::
      (if 1 < limit then items.drop (items.length - (limit - 1).toNat)
      else items.drop (1 - limit).toNat)
  else items

/-- The number of items shown by default. -/
def shownItems : Int := 5

/-- The text of a stack, given with its top first. -/
def formatStack (limit : Int) (stack : List Int) : Except Failure String :=
  match stack.reverse.mapM Text.decimal? with
  | some items => .ok ("[ " ++ String.intercalate ", " (shorten limit items) ++ " ]")
  | none => .error (.tooManyDigits none)

/-- Print the stack of a machine. -/
def Machine.showStack {σ : Type} : Run σ Unit := do
  match formatStack shownItems (← get).memory.stack with
  | .ok text => Run.say text
  | .error failure => throw (.failure failure)

end StackRover
