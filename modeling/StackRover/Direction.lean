/-!
# Directions and positions

The player stands on a cell of an unbounded grid, with `x` growing to the right and `y` growing
downwards, and moves by one cell at a time.

* `ofCode?_code`, `code_of_ofCode?`: the codes 0 to 4 name the five directions, one each.
-/

namespace StackRover

/-- A cell of the grid. -/
structure Position where
  x : Int
  y : Int
  deriving Repr, DecidableEq

/-- Where one turn can take the player; `stay` is the move of a turn that is waited out. -/
inductive Direction where
  | stay
  | up
  | right
  | down
  | left
  deriving Repr, DecidableEq

namespace Direction

/-- The number that programs use for the direction. -/
def code : Direction → Int
  | stay => 0
  | up => 1
  | right => 2
  | down => 3
  | left => 4

/-- The direction with the given number. -/
def ofCode? (n : Int) : Option Direction :=
  if n = 0 then some stay
  else if n = 1 then some up
  else if n = 2 then some right
  else if n = 3 then some down
  else if n = 4 then some left
  else none

@[simp] theorem ofCode?_code (d : Direction) : ofCode? d.code = some d := by
  cases d <;> rfl

theorem code_of_ofCode? {n : Int} {d : Direction} (h : ofCode? n = some d) : d.code = n := by
  unfold ofCode? at h
  repeat' split at h
  all_goals simp_all [code]
  all_goals subst h; rfl

/-- The name of the direction in capitals. -/
def name : Direction → String
  | stay => "NONE"
  | up => "UP"
  | right => "RIGHT"
  | down => "DOWN"
  | left => "LEFT"

/-- The name of the direction in reports. -/
def label : Direction → String
  | stay => "none"
  | up => "up"
  | right => "right"
  | down => "down"
  | left => "left"

/-- The columns and rows that one move covers. -/
def vector : Direction → Int × Int
  | stay => (0, 0)
  | up => (0, -1)
  | right => (1, 0)
  | down => (0, 1)
  | left => (-1, 0)

end Direction

/-- The neighbouring cell in the given direction. -/
def Position.toward (p : Position) (d : Direction) : Position :=
  ⟨p.x + d.vector.1, p.y + d.vector.2⟩

end StackRover
