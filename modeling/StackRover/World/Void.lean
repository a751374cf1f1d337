import StackRover.World

/-!
# Worlds without a grid

`Void` ignores every move and shows empty cells only. `Bare` offers nothing at all, except that it
may know where the player is.
-/

namespace StackRover

/-- The world that ignores every move and shows empty cells only. -/
structure Void where
  deriving Repr, DecidableEq

instance : World Void where
  move _ w := .pure () w
  lookAt _ w := .pure .empty w
  position w := .pure ⟨0, 0⟩ w
  stackChanged _ w := .pure () w
  stepped _ w := .pure () w

theorem quietHooks_void : QuietHooks Void := ⟨fun _ _ => rfl, fun _ _ => rfl⟩

/-- The world that offers nothing, except that it may know where the player is. -/
structure Bare where
  known : Option Position := none
  deriving Repr, DecidableEq

instance : World Bare where
  move _ w := ⟨.error (.failure .unimplemented), w, []⟩
  lookAt _ w := ⟨.error (.failure .unimplemented), w, []⟩
  position w :=
    match w.known with
    | some p => .pure p w
    | none => ⟨.error (.failure .unimplemented), w, []⟩
  stackChanged _ w := .pure () w
  stepped _ w := .pure () w

end StackRover
