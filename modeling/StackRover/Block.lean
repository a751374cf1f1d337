import StackRover.Fault

/-!
# Blocks

`DEF` and `IF` open a block and `END` closes the innermost open one; an `ELSE` that stands in no
inner block divides the block of an `IF`. The functions here look at the terms that follow an opener
and count the inner blocks that are open.

* `closing`: where the `END` of the block stands.
* `Arms.split`: the two arms of an `IF`, cut at the last `ELSE` of its own.
-/

namespace StackRover.Block

/-- Whether the term opens a block. -/
def isOpener (term : String) : Bool := term == "DEF" || term == "IF"

/-- Walk over terms with `depth` inner blocks open, `pos` terms already passed. -/
def closingFrom (depth pos : Nat) : List String → Option Nat
  | [] => none
  | term :: terms =>
    if isOpener term then closingFrom (depth + 1) (pos + 1) terms
    else if term == "END" then
      match depth with
      | 0 => some pos
      | inner + 1 => closingFrom inner (pos + 1) terms
    else closingFrom depth (pos + 1) terms

/-- The index of the `END` that closes the block opened just before the terms. -/
def closing (terms : List String) : Except Fault Nat :=
  match closingFrom 0 0 terms with
  | some pos => .ok pos
  | none => .error .unterminatedBlock

/-- The two arms of an `IF`, and the index of the `END` that closes it. -/
structure Arms where
  onTrue : List String
  onFalse : List String
  close : Nat
  deriving Repr, DecidableEq

/-- Walk over terms with `depth` inner blocks open, `pos` terms already passed, the last `ELSE` of
the block itself at `divider`. Gives the closing index and the divider. -/
def dividerFrom (depth pos : Nat) (divider : Option Nat) : List String → Option (Nat × Option Nat)
  | [] => none
  | term :: terms =>
    if isOpener term then dividerFrom (depth + 1) (pos + 1) divider terms
    else if term == "ELSE" then
      dividerFrom depth (pos + 1) (if depth = 0 then some pos else divider) terms
    else if term == "END" then
      match depth with
      | 0 => some (pos, divider)
      | inner + 1 => dividerFrom inner (pos + 1) divider terms
    else dividerFrom depth (pos + 1) divider terms

/-- The arms of the `IF` opened just before the terms. Without an `ELSE` of its own the second arm
is empty; with several, the last one divides. -/
def Arms.split (terms : List String) : Except Fault Arms :=
  match dividerFrom 0 0 none terms with
  | none => .error .unterminatedBlock
  | some (close, none) => .ok ⟨terms.take close, [], close⟩
  | some (close, some divider) =>
    .ok ⟨terms.take divider, (terms.take close).drop (divider + 1), close⟩

end StackRover.Block
