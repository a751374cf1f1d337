import StackRover.Text.Printable

/-!
# Quoted text

The written form of a text inside messages: between single quotes, or between double quotes when
it holds a single quote and no double quote. A backslash goes before a backslash and before the
quote in use; characters that are not printable are written by code point.
-/

namespace StackRover.Text

/-- The hexadecimal digits of a number, filled up with zeros to a width. -/
def hex (width n : Nat) : List Char :=
  let digits := Nat.toDigits 16 n
  List.replicate (width - digits.length) '0' ++ digits

/-- A character written by its code point. -/
def codePoint (c : Char) : List Char :=
  let n := c.toNat
  if n < 0x100 then '\\' :: 'x' :: hex 2 n
  else if n < 0x10000 then '\\' :: 'u' :: hex 4 n
  else '\\' :: 'U' :: hex 8 n

/-- How a character is written between the given quotes. -/
def quoteChar (mark c : Char) : List Char :=
  if c == mark || c == '\\' then ['\\', c]
  else if c == '\n' then ['\\', 'n']
  else if c == '\r' then ['\\', 'r']
  else if c == '\t' then ['\\', 't']
  else if isPrintable c then [c]
  else codePoint c

/-- The single quote. -/
def singleMark : Char := '\x27'

/-- The double quote. -/
def doubleMark : Char := '\x22'

/-- The quote that a text is written between. -/
def quoteMark (cs : List Char) : Char :=
  if cs.contains singleMark && !cs.contains doubleMark then doubleMark else singleMark

/-- The quoted form of a text. -/
def quote (s : String) : String :=
  let mark := quoteMark s.toList
  String.ofList (mark :: s.toList.flatMap (quoteChar mark) ++ [mark])

/-- Texts between brackets, a comma and a space after each but the last. -/
def bracketed (items : List String) : String := "[" ++ String.intercalate ", " items ++ "]"

end StackRover.Text
