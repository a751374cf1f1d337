import StackRover.Machine
import StackRover.Settings

/-!
# Setting up a machine

A machine starts with all built-in operations or with a chosen few, and with the operations that the
host adds. A limit or a debug flag that is not given comes from the settings.

* `Machine.create`: a machine ready to be loaded.
-/

namespace StackRover

/-- What a machine is set up with. -/
structure Options where
  /-- The built-in operations to activate, by name; all of them by default. -/
  available : Option (List String) := none
  /-- Operations of the host. -/
  additional : List Operation := []
  /-- The limit of steps; from the settings by default. -/
  maxSteps : Option Int := none
  /-- Whether every term is logged; from the settings by default. -/
  debug : Option Bool := none
  settings : Settings := {}
  dice : Dice := .cycling #[]

namespace Machine

variable {σ : Type}

/-- The built-in operations with the given names, in the given order. -/
def activate (available : Option (List String)) : Except Failure (Lexicon Operation) :=
  match available with
  | none => .ok Builtin.catalogue
  | some names =>
    match names.filter (fun name => (Builtin.ofName? name).isNone) with
    | [] => .ok (Lexicon.ofList ((names.filterMap Builtin.ofName?).map Builtin.operation))
    | unknown => .error (.unknownOpcodes unknown)

/-- A machine in the given world, with nothing loaded. -/
def create (world : σ) (options : Options) : Except Failure (Machine σ) := do
  let maxSteps ←
    match options.maxSteps with
    | some limit => .ok limit
    | none => options.settings.stepLimit
  let operations ← activate options.available
  return {
    memory := { dice := options.dice, world := world }
    operations := options.additional.foldl Lexicon.insert operations
    maxSteps := maxSteps
    debug := options.debug.getD options.settings.debugging }

end Machine

end StackRover
