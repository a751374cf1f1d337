import StackRover.Text.Blank

/-!
# Program text

A program is a list of terms. Its text is cut at the comment marks `#`: the pieces are code and
comment in turn. A comment whose closing mark is missing reaches to the end of its line only, so
what follows that line is code again.

* `tokenize`: the terms of a program text.
* `keepCode_pair`: a closed comment leaves nothing, and never joins the code before and after it.
-/

namespace StackRover.Program

/-- The character that opens and closes a comment. -/
def commentMark : Char := '#'

/-- The code among the pieces between comment marks. The pieces are code and comment in turn; a last
comment that is not closed gives way to code at its first line break. -/
def keepCode : List (List Char) → List (List Char)
  | [] => []
  | [code] => [code]
  | [code, comment] => [code, comment.dropWhile (fun c => !Text.isLineBreak c)]
  | code :: _ :: rest => code :: keepCode rest

/-- A closed comment leaves nothing, and never joins the code before and after it. -/
theorem keepCode_pair (code comment next : List Char) (rest : List (List Char)) :
    keepCode (code :: comment :: next :: rest) = code :: keepCode (next :: rest) := rfl

/-- The terms of a program text, in order. -/
def tokenize (text : String) : List String :=
  (keepCode (Text.cut (· == commentMark) text.toList)).flatMap Text.words

end StackRover.Program
