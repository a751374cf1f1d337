import StackRover.Journal

/-!
# Worlds

A world is what the machine acts on and senses. It carries out moves, tells what stands on a cell
and where the player is, and is told about every step. Each request may change the world, show
events and raise something; the machine itself is out of its reach.

* `QuietHooks`: a world that takes no notice of the two notifications.
-/

namespace StackRover

/-- The answer of a world to a request. -/
structure Reply (σ α : Type) where
  /-- The answer, or what was raised instead. -/
  result : Except Raised α
  /-- The world after the request. -/
  world : σ
  /-- What the request showed, oldest first. -/
  events : List Event := []

/-- The answer that changes and shows nothing. -/
def Reply.pure {σ α : Type} (value : α) (world : σ) : Reply σ α := ⟨.ok value, world, []⟩

/-- What the machine asks of the world it runs in. -/
class World (σ : Type) where
  /-- Move the player, if possible. -/
  move : Direction → σ → Reply σ Unit
  /-- Tell what stands on a cell. -/
  lookAt : Position → σ → Reply σ Object
  /-- Tell where the player is. -/
  position : σ → Reply σ Position
  /-- Take notice of the stack after a term, its top first. -/
  stackChanged : List Int → σ → Reply σ Unit
  /-- Take notice of the number of steps after a term. -/
  stepped : Nat → σ → Reply σ Unit

/-- The world takes no notice of the two notifications. -/
structure QuietHooks (σ : Type) [World σ] : Prop where
  stackChanged : ∀ (stack : List Int) (w : σ), World.stackChanged stack w = Reply.pure () w
  stepped : ∀ (steps : Nat) (w : σ), World.stepped steps w = Reply.pure () w

end StackRover
