import StackRover.World

/-!
# The open plane

An unbounded grid for running programs outside a game. Blocks stop a move, everything else is walked
over. The plane logs every move and may also print it.
-/

namespace StackRover

/-- The objects of a grid: one for every cell. -/
abbrev Layout := Position → Object

/-- The layout with the given objects on an otherwise empty grid; of two objects on one cell the
later counts. -/
def Layout.ofList (placed : List (Position × Object)) : Layout :=
  fun p => (placed.reverse.lookup p).getD .empty

/-- An unbounded grid with a player on it. -/
structure Plane where
  layout : Layout := fun _ => .empty
  /-- Where the player is. -/
  position : Position := ⟨0, 0⟩
  /-- Whether moves are printed. -/
  echo : Bool := false
  /-- All moves so far, blocked ones included, the latest first. -/
  moves : List Direction := []

namespace Plane

/-- Where a move in the given direction ends. -/
def destination (plane : Plane) (d : Direction) : Position :=
  let target := plane.position.toward d
  if plane.layout target = .block then plane.position else target

/-- The log of a move. -/
def moveLog (plane : Plane) (d : Direction) : List Event :=
  let target := plane.position.toward d
  let arrival := [.log (.moved d (plane.destination d))]
  if plane.layout target = .block then .log (.blocked d target) :: arrival else arrival

/-- Carry out a move. Printing it fails where the position is too long to be written. -/
def move (d : Direction) (plane : Plane) : Reply Plane Unit :=
  let after := { plane with position := plane.destination d, moves := d :: plane.moves }
  if plane.echo then
    match Message.movedText? d after.position with
    | some text => ⟨.ok (), after, plane.moveLog d ++ [.line text]⟩
    | none => ⟨.error (.failure (.tooManyDigits none)), after, plane.moveLog d⟩
  else ⟨.ok (), after, plane.moveLog d⟩

end Plane

instance : World Plane where
  move := Plane.move
  lookAt p plane := .pure (plane.layout p) plane
  position plane := .pure plane.position plane
  stackChanged _ plane := .pure () plane
  stepped _ plane := .pure () plane

theorem quietHooks_plane : QuietHooks Plane := ⟨fun _ _ => rfl, fun _ _ => rfl⟩

end StackRover
