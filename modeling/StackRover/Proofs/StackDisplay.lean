import StackRover.Proofs.Literals
import StackRover.Proofs.Sessions

/-!
# The stack on display

A stack is shown as a row of items between brackets, with commas between them. The items can be read
off the row, and every value can be read off its item. A limit of two or more bounds the items: of a
deeper stack only the topmost values are shown, and an ellipsis takes the place of the others. A
limit of one does not: the ellipsis is then put in front of all values.

* `Text.row`, `Text.itemsOf`, `Text.itemsOf_row`: a row of items, and how it is read.
* `Text.exists_literal_decimal`: the decimal text of a number is a literal with its value.
* `shorten_of_le`, `shorten_of_lt`, `shorten_one`: which items are shown.
* `formatStack_displays`: what is on display.
* `formatStack_overfull`: a row of three items under a limit of one.
-/

namespace StackRover

namespace Text

/-! ## Rows of items -/

/-- Items between brackets, with commas between them. -/
def row (items : List String) : String := "[ " ++ String.intercalate ", " items ++ " ]"

/-- The characters between the items of a row. -/
def isSeparator (c : Char) : Bool := isBlank c || c == ','

/-- The items of a row: what is read between its brackets. -/
def itemsOf (text : String) : List String := (segments isSeparator text.toList).tail.dropLast

/-- The text can be read back from a row: it is not empty and holds no separators. -/
structure IsItem (item : String) : Prop where
  ne_nil : item.toList ≠ []
  not_separator : ∀ c ∈ item.toList, isSeparator c = false

/-- A row is read back as its items. -/
theorem itemsOf_row {items : List String} (h : ∀ item ∈ items, IsItem item) :
    itemsOf (row items) = items := by
  have hrow : (row items).toList =
      ['['] ++ ' ' :: ((String.intercalate ", " items).toList ++ ' ' :: [']']) := by
    simp [row]
  have hjoined : segments isSeparator (String.intercalate ", " items).toList = items := by
    refine segments_intercalate (by simp) (by simp [isSeparator, isBlank]) fun item hitem => ?_
    exact segments_eq_singleton (h item hitem).ne_nil (h item hitem).not_separator
  have hsegments : segments isSeparator (row items).toList = "[" :: (items ++ ["]"]) := by
    rw [hrow, segments_append_cons rfl, segments_append_cons rfl, hjoined]
    rfl
  rw [itemsOf, hsegments, List.tail_cons, List.dropLast_concat]

/-! ## Decimal texts -/

theorem ofDigitChars_figures (digits : List (Fin 10)) (init : Nat) :
    Nat.ofDigitChars 10 (figures digits) init =
      (digits.map Fin.val).foldl (fun value digit => 10 * value + digit) init := by
  have hzero : '0'.toNat = 0x30 := rfl
  simp only [Nat.ofDigitChars_eq_foldl, figures, List.foldl_map, hzero, toNat_digitChar]

/-- The digits of a natural number, as they are written. -/
theorem exists_figures_toDigits (n : Nat) :
    ∃ digits : List (Fin 10), figures digits = Nat.toDigits 10 n ∧
      Nat.ofDigits 10 (digits.map Fin.val).reverse = n := by
  obtain ⟨digits, hdigits⟩ := exists_figures
    fun c hc => Nat.isDigit_of_mem_toDigits (b := 10) (n := n) (by decide) (by decide) hc
  refine ⟨digits, hdigits, ?_⟩
  rw [← digitsValue_eq_ofDigits]
  have hvalue := Nat.ofDigitChars_toDigits (b := 10) (n := n) (by decide) (by decide)
  rw [← hdigits, ofDigitChars_figures] at hvalue
  exact hvalue

/-- The decimal text of a number is a literal with its value. -/
theorem exists_literal_decimal (value : Int) :
    ∃ l : Literal, l.text = decimal value ∧ l.value = value ∧
      figures l.digits = Nat.toDigits 10 value.natAbs := by
  obtain ⟨digits, hdigits, hvalue⟩ := exists_figures_toDigits value.natAbs
  have hne : digits ≠ [] := by
    rintro rfl
    exact Nat.toDigits_ne_nil hdigits.symm
  cases value with
  | ofNat n =>
    refine ⟨⟨.unsigned, digits, hne⟩, ?_, congrArg Int.ofNat hvalue, hdigits⟩
    rw [Literal.text, hdigits, decimal, Nat.repr_eq_ofList_toDigits]
    rfl
  | negSucc n =>
    refine ⟨⟨.minus, digits, hne⟩, ?_, ?_, hdigits⟩
    · rw [Literal.text, hdigits, decimal, Nat.repr_eq_ofList_toDigits]
      exact String.ofList_append
    · rw [Literal.value, hvalue]
      rfl

/-- A number that can be written is read back from its text. -/
theorem readLiteral_decimal {value : Int} (h : isWritable value = true) :
    readLiteral (decimal value) = .value value := by
  obtain ⟨l, htext, hvalue, hdigits⟩ := exists_literal_decimal value
  have hlength : ∀ k : Nat, 0 < k → value.natAbs < Nat.pow 10 k → ¬ k < l.digits.length := by
    intro k hk hlt
    have hfigures : (figures l.digits).length = l.digits.length := List.length_map _
    rw [← hfigures, hdigits, Nat.not_lt]
    exact (Nat.length_toDigits_le_iff (by decide) hk).mpr hlt
  have hshort : ¬ digitLimit < l.digits.length := by
    unfold isWritable firstTooLong at h
    exact hlength _ (by decide) (of_decide_eq_true h)
  rw [← htext, l.readLiteral_text, if_neg hshort, hvalue]

theorem isSeparator_of_isDigit {c : Char} (h : c.isDigit = true) : isSeparator c = false := by
  have hcomma : c ≠ ',' := by
    rintro rfl
    cases h
  simp [isSeparator, isBlank_of_isDigit h, hcomma]

theorem isItem_decimal (value : Int) : IsItem (decimal value) := by
  obtain ⟨l, htext, -, -⟩ := exists_literal_decimal value
  rw [← htext]
  refine ⟨?_, fun c hc => ?_⟩
  · simp [Literal.toList_text, figures, l.digits_ne_nil]
  · rcases Literal.mem_text hc with rfl | rfl | hdigit
    · rfl
    · rfl
    · exact isSeparator_of_isDigit hdigit

theorem isItem_ellipsis : IsItem ellipsis := by
  have hchars : ellipsis.toList = ['.', '.', '.'] := rfl
  refine ⟨?_, fun c hc => ?_⟩
  · simp [hchars]
  · obtain rfl : c = '.' := by simpa [hchars] using hc
    rfl

end Text

/-! ## Which items are shown -/

theorem shorten_of_le {limit : Int} {items : List String} (h : (items.length : Int) ≤ limit) :
    shorten limit items = items :=
  if_neg (Int.not_lt.mpr h)

theorem shorten_of_lt {limit : Int} {items : List String} (hdeep : limit < items.length)
    (hlimit : 2 ≤ limit) :
    shorten limit items = ellipsis :: items.drop (items.length - (limit - 1).toNat) := by
  have hlimit' : 1 < limit := hlimit
  rw [shorten, if_pos hdeep, if_pos hlimit']

/-- A limit of one keeps nothing out. -/
theorem shorten_one {items : List String} (hdeep : 1 < items.length) :
    shorten 1 items = ellipsis :: items := by
  have hdeep' : (1 : Int) < items.length := by exact_mod_cast hdeep
  rw [shorten, if_pos hdeep', if_neg (Int.lt_irrefl 1)]
  rfl

theorem mem_shorten {limit : Int} {items : List String} {item : String}
    (h : item ∈ shorten limit items) : item = ellipsis ∨ item ∈ items := by
  unfold shorten at h
  split at h
  · rw [List.mem_cons] at h
    refine h.imp_right fun hmem => ?_
    split at hmem
    · exact List.mem_of_mem_drop hmem
    · exact List.mem_of_mem_drop hmem
  · exact Or.inr h

/-- The limit holds, unless it is one and there are more items than that. -/
theorem length_shorten_le_iff {limit : Int} (hlimit : 1 ≤ limit) (items : List String) :
    ((shorten limit items).length : Int) ≤ limit ↔ limit ≠ 1 ∨ items.length ≤ 1 := by
  by_cases hfits : (items.length : Int) ≤ limit
  · rw [shorten_of_le hfits]
    refine iff_of_true hfits ?_
    omega
  · have hdeep : limit < items.length := Int.not_le.mp hfits
    rcases Int.lt_or_eq_of_le hlimit with htwo | rfl
    · rw [shorten_of_lt hdeep htwo, List.length_cons, List.length_drop]
      omega
    · rw [shorten_one (by omega), List.length_cons]
      omega

theorem formatStack_of_writable (limit : Int) {stack : List Int}
    (h : stack.all Text.isWritable = true) :
    formatStack limit stack =
      .ok (Text.row (shorten limit (stack.reverse.map Text.decimal))) := by
  have hall : stack.reverse.all Text.isWritable = true := by
    rw [List.all_reverse]
    exact h
  rw [formatStack, Machine.mapM_decimal?, if_pos hall]
  rfl

/-- **What is on display.** Let the limit be at least one, and let all values of the stack have at
most 4300 digits. Then the stack is shown as a row of items that can be read back, and so can every
value from its text. If the limit allows for all values, they are the items, the oldest one first.
If it does not and is two or more, the items are the ellipsis and the topmost values, one less than
the limit allows for. Under a limit of one, however, the ellipsis is followed by all values; so
there are no more items than the limit allows for, except under a limit of one if there are two
values or more. -/
theorem formatStack_displays {limit : Int} {stack : List Int} (hlimit : 1 ≤ limit)
    (hwritable : stack.all Text.isWritable = true) :
    ∃ items, formatStack limit stack = .ok (Text.row items) ∧
      Text.itemsOf (Text.row items) = items ∧
      (∀ value ∈ stack, Text.readLiteral (Text.decimal value) = .value value) ∧
      ((stack.length : Int) ≤ limit → items = stack.reverse.map Text.decimal) ∧
      (limit < stack.length → 2 ≤ limit → ∃ older shown,
        stack.reverse = older ++ shown ∧ (shown.length : Int) = limit - 1 ∧
          items = ellipsis :: shown.map Text.decimal) ∧
      (limit < stack.length → limit = 1 → items = ellipsis :: stack.reverse.map Text.decimal) ∧
      ((items.length : Int) ≤ limit ↔ limit ≠ 1 ∨ stack.length ≤ 1) := by
  have hitems : ∀ item ∈ shorten limit (stack.reverse.map Text.decimal), Text.IsItem item := by
    intro item hitem
    rcases mem_shorten hitem with rfl | hvalue
    · exact Text.isItem_ellipsis
    · obtain ⟨value, -, rfl⟩ := List.mem_map.mp hvalue
      exact Text.isItem_decimal value
  have hlength : (stack.reverse.map Text.decimal).length = stack.length := by simp
  refine ⟨_, formatStack_of_writable limit hwritable, Text.itemsOf_row hitems,
    fun value hvalue => ?_, fun hfits => ?_, fun hdeep htwo => ?_, ?_, ?_⟩
  · exact Text.readLiteral_decimal (List.all_eq_true.mp hwritable value hvalue)
  · exact shorten_of_le (by rwa [hlength])
  · let hidden := stack.length - (limit - 1).toNat
    refine ⟨stack.reverse.take hidden, stack.reverse.drop hidden,
      (List.take_append_drop _ _).symm, ?_, ?_⟩
    · rw [List.length_drop, List.length_reverse]
      omega
    · rw [shorten_of_lt (by rwa [hlength]) htwo, hlength, List.map_drop]
  · rintro hdeep rfl
    exact shorten_one (by rw [hlength]; exact_mod_cast hdeep)
  · rw [length_shorten_le_iff hlimit, hlength]

/-- Of three values under a limit of two, the ellipsis and the topmost one are shown. -/
theorem formatStack_displays_topmost :
    formatStack 2 [-30, 20, 10] = .ok "[ ..., -30 ]" ∧
    Text.itemsOf "[ ..., -30 ]" = ["...", "-30"] := by
  have hwritable : [-30, 20, 10].all Text.isWritable = true := by decide +kernel
  obtain ⟨items, hformat, hitems, -, -, htop, -, -⟩ :=
    formatStack_displays (show (1 : Int) ≤ 2 by decide) hwritable
  obtain ⟨older, shown, hsplit, hlength, rfl⟩ := htop (by decide) (by decide)
  have hsplit' : [10, 20] ++ [-30] = older ++ shown := hsplit
  have hone : [-30].length = shown.length := by
    rw [List.length_singleton]
    omega
  obtain rfl := List.append_inj_right' hsplit' hone
  exact ⟨hformat, hitems⟩

/-- Under a limit of one, two values make a row of three items. -/
theorem formatStack_overfull :
    formatStack 1 [2, 1] = .ok "[ ..., 1, 2 ]" ∧
    Text.itemsOf "[ ..., 1, 2 ]" = ["...", "1", "2"] ∧
    ¬ ∀ (limit : Int) (stack : List Int), 1 ≤ limit → stack.all Text.isWritable = true →
      ∃ text, formatStack limit stack = .ok text ∧ ((Text.itemsOf text).length : Int) ≤ limit := by
  have hwritable : [2, 1].all Text.isWritable = true := by decide +kernel
  have hformat : formatStack 1 [2, 1] = .ok "[ ..., 1, 2 ]" := by
    rw [formatStack_of_writable 1 hwritable]
    exact congrArg Except.ok (by decide +kernel)
  have hitems : Text.itemsOf "[ ..., 1, 2 ]" = ["...", "1", "2"] := by decide +kernel
  refine ⟨hformat, hitems, fun h => ?_⟩
  obtain ⟨text, htext, hlength⟩ := h 1 [2, 1] (by decide) hwritable
  rw [hformat] at htext
  cases htext
  rw [hitems] at hlength
  exact absurd hlength (by decide)

end StackRover
