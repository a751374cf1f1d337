/-!
# Dice

Random numbers come from a fixed sequence of integers, reduced to the range that is asked for. The
ranges asked for so far are kept, and their number says which integer is next. The sequence is any
one, so it can be what a generator has given in one run; but a generator that raises something, or
whose numbers lie outside the range, is not described.

* `Dice.minimum_le_face`, `Dice.face_lt_maximum`: a roll lies in its range.
-/

namespace StackRover

/-- A sequence of integers, and the ranges for which it was used. -/
structure Dice where
  draw : Nat → Int
  /-- The ranges asked for, the latest first. -/
  rolls : List (Int × Int) := []
  /-- The number of ranges asked for. -/
  rolled : Nat := 0
  rolled_eq : rolled = rolls.length := by rfl

namespace Dice

/-- Dice that repeat the given integers for ever, or zero if there are none. -/
def cycling (draws : Array Int) : Dice where
  draw i := draws.getD (i % draws.size) 0

/-- Dice that follow a long pseudo-random sequence, chosen by a seed: each index is multiplied by
an odd constant, shifted by the seed and scrambled. -/
def scrambled (seed : UInt64) : Dice where
  draw i :=
    let a := seed + i.toUInt64 * 0x9E3779B97F4A7C15
    let b := (a ^^^ (a >>> 30)) * 0xBF58476D1CE4E5B9
    let c := (b ^^^ (b >>> 27)) * 0x94D049BB133111EB
    (c ^^^ (c >>> 31)).toNat

/-- The number that the next roll gives for a range. -/
def face (dice : Dice) (minimum maximum : Int) : Int :=
  minimum + (dice.draw dice.rolled) % (maximum - minimum)

/-- The dice after a roll for a range. -/
def rolledFor (dice : Dice) (minimum maximum : Int) : Dice :=
  { dice with
    rolls := (minimum, maximum) :: dice.rolls
    rolled := dice.rolled + 1
    rolled_eq := by simp [dice.rolled_eq] }

theorem minimum_le_face (dice : Dice) {minimum maximum : Int} (h : minimum < maximum) :
    minimum ≤ dice.face minimum maximum := by
  have : maximum - minimum ≠ 0 := by omega
  have := Int.emod_nonneg (dice.draw dice.rolled) this
  unfold face
  omega

theorem face_lt_maximum (dice : Dice) {minimum maximum : Int} (h : minimum < maximum) :
    dice.face minimum maximum < maximum := by
  have : 0 < maximum - minimum := by omega
  have := Int.emod_lt_of_pos (dice.draw dice.rolled) this
  unfold face
  omega

end Dice

end StackRover
