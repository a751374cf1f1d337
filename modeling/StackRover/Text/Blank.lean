/-!
# Blanks, line breaks and cutting

A text is handled as its list of characters. This file fixes which characters are blank, which of
them end a line, and how a list is cut at the characters of a class.

* `isBlank_of_isLineBreak`: every line break is a blank.
* `flatten_cut`: cutting loses nothing but the characters it cuts at.
* `not_of_mem_cut`: no piece holds a character that is cut at.
* `ne_nil_and_not_isBlank_of_mem_words`: a word is not empty and holds no blank.
-/

namespace StackRover.Text

/-- The characters that end a line. -/
def isLineBreak (c : Char) : Bool :=
  let n := c.toNat
  (0x0A ≤ n && n ≤ 0x0D) || (0x1C ≤ n && n ≤ 0x1E) || n == 0x85 || n == 0x2028 || n == 0x2029

/-- The characters that separate terms: the Unicode white space, with the four information
separators U+001C to U+001F. Zero-width characters are not among them. -/
def isBlank (c : Char) : Bool :=
  let n := c.toNat
  (0x09 ≤ n && n ≤ 0x0D) || (0x1C ≤ n && n ≤ 0x20) || n == 0x85 || n == 0xA0 || n == 0x1680 ||
    (0x2000 ≤ n && n ≤ 0x200A) || n == 0x2028 || n == 0x2029 || n == 0x202F || n == 0x205F ||
    n == 0x3000

theorem isBlank_of_isLineBreak {c : Char} (h : isLineBreak c = true) : isBlank c = true := by
  simp only [isLineBreak, isBlank, Bool.or_eq_true, Bool.and_eq_true, decide_eq_true_eq,
    beq_iff_eq] at h ⊢
  omega

/-! ## Cutting -/

/-- Put a character in front of the first piece. -/
def extend (c : Char) : List (List Char) → List (List Char)
  | [] => [[c]]
  | piece :: pieces => (c :: piece) :: pieces

/-- The pieces between the characters that satisfy `p`, empty ones included; there is always one
more piece than there are such characters. -/
def cut (p : Char → Bool) (cs : List Char) : List (List Char) :=
  cs.foldr (fun c pieces => if p c then [] :: pieces else extend c pieces) [[]]

@[simp] theorem cut_nil (p : Char → Bool) : cut p [] = [[]] := rfl

theorem cut_cons (p : Char → Bool) (c : Char) (cs : List Char) :
    cut p (c :: cs) = if p c then [] :: cut p cs else extend c (cut p cs) := rfl

theorem flatten_extend (c : Char) (pieces : List (List Char)) :
    (extend c pieces).flatten = c :: pieces.flatten := by
  cases pieces <;> rfl

/-- Cutting loses nothing but the characters it cuts at. -/
theorem flatten_cut (p : Char → Bool) (cs : List Char) :
    (cut p cs).flatten = cs.filter (fun c => !p c) := by
  induction cs with
  | nil => rfl
  | cons c cs ih =>
    rw [cut_cons]
    by_cases h : p c = true
    · simp [h, ih]
    · simp [h, ih, flatten_extend]

theorem not_of_mem_extend {p : Char → Bool} {c : Char} (hc : p c = false)
    {pieces : List (List Char)} (h : ∀ piece ∈ pieces, ∀ x ∈ piece, p x = false) :
    ∀ piece ∈ extend c pieces, ∀ x ∈ piece, p x = false := by
  cases pieces with
  | nil => simpa [extend] using hc
  | cons first rest =>
    intro piece hpiece x hx
    rcases List.mem_cons.mp hpiece with rfl | hrest
    · rcases List.mem_cons.mp hx with rfl | hx
      · exact hc
      · exact h first (List.mem_cons_self ..) x hx
    · exact h piece (List.mem_cons_of_mem _ hrest) x hx

/-- No piece holds a character that is cut at. -/
theorem not_of_mem_cut (p : Char → Bool) (cs : List Char) :
    ∀ piece ∈ cut p cs, ∀ x ∈ piece, p x = false := by
  induction cs with
  | nil => simp
  | cons c cs ih =>
    rw [cut_cons]
    split
    · intro piece hpiece x hx
      rcases List.mem_cons.mp hpiece with rfl | hrest
      · cases hx
      · exact ih piece hrest x hx
    · rename_i hc
      exact not_of_mem_extend (by simpa using hc) ih

/-- The maximal blank-free runs of a text, in order. -/
def words (cs : List Char) : List String :=
  ((cut isBlank cs).filter (fun piece => !piece.isEmpty)).map String.ofList

/-- A word is not empty and holds no blank. -/
theorem ne_nil_and_not_isBlank_of_mem_words {cs : List Char} {word : String}
    (h : word ∈ words cs) : word.toList ≠ [] ∧ ∀ c ∈ word.toList, isBlank c = false := by
  obtain ⟨piece, hpiece, rfl⟩ := List.mem_map.mp h
  obtain ⟨hcut, hne⟩ := List.mem_filter.mp hpiece
  rw [String.toList_ofList]
  exact ⟨by simpa using hne, not_of_mem_cut isBlank cs piece hcut⟩

/-! ## Trimming -/

/-- Drop the leading and the trailing characters that satisfy `p`. -/
def trim (p : Char → Bool) (cs : List Char) : List Char :=
  ((cs.dropWhile p).reverse.dropWhile p).reverse

/-- A text without the blanks around it. -/
def strip (s : String) : String := String.ofList (trim isBlank s.toList)

end StackRover.Text
