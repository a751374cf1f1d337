import StackRover.Text.Blank

/-!
# Decimal numerals

Integers are unbounded, but no numeral longer than `digitLimit` digits is read or written: longer
ones are refused, so that a hostile program cannot stall its host with number conversion.

Two readers share the limit. `readSetting` reads a setting: decimal digits of any script, single
underscores between digits, blanks around. `readLiteral` reads a program literal: an optional sign
and ASCII digits, nothing else.

* `isLiteral_iff_readLiteral`: a term is a literal exactly when reading it is not `malformed`.
-/

namespace StackRover.Text

/-- The greatest number of digits that is converted between integers and text. -/
def digitLimit : Nat := 4300

/-- The least natural number with more than `digitLimit` digits. -/
def firstTooLong : Nat := Nat.pow 10 digitLimit

/-- Whether the integer can be written: it has at most `digitLimit` digits. -/
def isWritable (n : Int) : Bool := n.natAbs < firstTooLong

/-- The decimal text of an integer. -/
def decimal : Int → String
  | .ofNat n => Nat.repr n
  | .negSucc n => "-" ++ Nat.repr (n + 1)

/-- The decimal text of an integer within the limit. -/
def decimal? (n : Int) : Option String := if isWritable n then some (decimal n) else none

/-! ## Digits -/

/-- The code points of the digit zero in every script that has decimal digits; the other nine digits
follow it. -/
def digitZeros : List Nat :=
  [0x30, 0x660, 0x6F0, 0x7C0, 0x966, 0x9E6, 0xA66, 0xAE6, 0xB66, 0xBE6, 0xC66, 0xCE6, 0xD66, 0xDE6,
    0xE50, 0xED0, 0xF20, 0x1040, 0x1090, 0x17E0, 0x1810, 0x1946, 0x19D0, 0x1A80, 0x1A90, 0x1B50,
    0x1BB0, 0x1C40, 0x1C50, 0xA620, 0xA8D0, 0xA900, 0xA9D0, 0xA9F0, 0xAA50, 0xABF0, 0xFF10, 0x104A0,
    0x10D30, 0x11066, 0x110F0, 0x11136, 0x111D0, 0x112F0, 0x11450, 0x114D0, 0x11650, 0x116C0,
    0x11730, 0x118E0, 0x11950, 0x11C50, 0x11D50, 0x11DA0, 0x16A60, 0x16AC0, 0x16B50,
    0x1D7CE, 0x1D7D8, 0x1D7E2, 0x1D7EC, 0x1D7F6, 0x1E140, 0x1E2F0, 0x1E950, 0x1FBF0]

/-- The value of a decimal digit of any script. -/
def digitValue? (c : Char) : Option Nat :=
  (digitZeros.find? (fun first => first ≤ c.toNat && c.toNat < first + 10)).map (c.toNat - ·)

/-- The value of a digit string, most significant digit first. -/
def digitsValue (digits : List Nat) : Nat := digits.foldl (fun value digit => 10 * value + digit) 0

/-- The optional sign of a numeral, `true` for minus, and what follows it. -/
def splitSign : List Char → Bool × List Char
  | '+' :: cs => (false, cs)
  | '-' :: cs => (true, cs)
  | cs => (false, cs)

/-- What reading a numeral gives. -/
inductive Numeral where
  /-- A numeral with its value. -/
  | value (n : Int)
  /-- A numeral with more digits than the limit allows. -/
  | tooLong (digits : Nat)
  /-- No numeral. -/
  | malformed
  deriving Repr, DecidableEq

/-- The number that a sign and digits denote, if they are not too many. -/
def Numeral.ofDigits (negative : Bool) (digits : List Nat) : Numeral :=
  if digitLimit < digits.length then .tooLong digits.length
  else .value (if negative then -(digitsValue digits : Int) else digitsValue digits)

/-! ## Settings -/

/-- The blanks allowed around a setting: all blanks but the four information separators. -/
def isNumeralBlank (c : Char) : Bool := isBlank c && !(0x1C ≤ c.toNat && c.toNat ≤ 0x1F)

/-- Whether the character can stand in the digits of a setting. -/
def isGroupedDigit (c : Char) : Bool := c == '_' || (digitValue? c).isSome

/-- The digits of a digit string in which single underscores may stand between two digits. -/
def groupedDigits? (cs : List Char) : Option (List Nat) :=
  let groups := cut (· == '_') cs
  if groups.any List.isEmpty then none else groups.flatten.mapM digitValue?

/-- Read the numeral of a setting. The digits at its start are judged before what follows them: too
many of them are too many, whatever comes next. -/
def readSetting (s : String) : Numeral :=
  let (negative, cs) := splitSign (trim isNumeralBlank s.toList)
  match groupedDigits? (cs.takeWhile isGroupedDigit) with
  | none => .malformed
  | some digits =>
    match Numeral.ofDigits negative digits with
    | .value n => if (cs.dropWhile isGroupedDigit).isEmpty then .value n else .malformed
    | numeral => numeral

/-! ## Literals -/

/-- Whether a term is a literal: an optional sign and at least one ASCII digit, nothing else. -/
def isLiteral (term : String) : Bool :=
  let digits := (splitSign term.toList).2
  !digits.isEmpty && digits.all Char.isDigit

/-- Read a program literal. -/
def readLiteral (term : String) : Numeral :=
  let (negative, digits) := splitSign term.toList
  if isLiteral term then .ofDigits negative (digits.map (fun c => c.toNat - 0x30)) else .malformed

theorem Numeral.ofDigits_ne_malformed (negative : Bool) (digits : List Nat) :
    Numeral.ofDigits negative digits ≠ .malformed := by
  unfold Numeral.ofDigits
  split <;> simp

/-- A term is a literal exactly when reading it is not `malformed`. -/
theorem isLiteral_iff_readLiteral (term : String) :
    isLiteral term = true ↔ readLiteral term ≠ .malformed := by
  unfold readLiteral
  by_cases h : isLiteral term = true
  · simp [h, Numeral.ofDigits_ne_malformed]
  · simp [h]

end StackRover.Text
