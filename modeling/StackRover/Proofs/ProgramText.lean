import Mathlib.Algebra.Group.Nat.Even
import Mathlib.Data.List.TakeWhile
import StackRover.Program
import StackRover.Prompt

/-!
# Program texts and their terms

A text is read as code and comments in turn, so facts about its terms go by that structure: a text
without comment marks, a text with one mark, and a text that starts with a closed comment. Terms can
be written down again: joined by blanks they are read as they were.

* `terms_induction`: the three ways in which a text starts.
* `isTerm_of_mem_tokenize`: a term is not empty and holds neither blanks nor comment marks.
* `segments_intercalate`, `words_intercalate`: what is joined is read as it was.
* `tokenize_lines`: lines whose comments are closed are read one after the other.
* `terms_append_lineBreak`: code is read behind a line break as it is alone.
* `tokenize_append_line`: texts are read line by line.
* `tokenize_chomp`, `ofLine_chomp`: line ends at the end of a line do not matter.
-/

namespace StackRover.Text

/-! ## Cutting and words -/

theorem cut_ne_nil (p : Char → Bool) (cs : List Char) : cut p cs ≠ [] := by
  cases cs with
  | nil => simp
  | cons c cs =>
    rw [cut_cons]
    split
    · simp
    · cases cut p cs <;> simp [extend]

/-- A character that is cut at separates the pieces before it from those after it. -/
theorem cut_append_cons {p : Char → Bool} {c : Char} (hc : p c = true) (cs ds : List Char) :
    cut p (cs ++ c :: ds) = cut p cs ++ cut p ds := by
  induction cs with
  | nil => simp [cut_cons, hc]
  | cons x cs ih =>
    rw [List.cons_append, cut_cons, cut_cons, ih]
    by_cases hx : p x = true
    · simp [hx]
    · obtain ⟨piece, pieces, hpieces⟩ := List.exists_cons_of_ne_nil (cut_ne_nil p cs)
      simp [hx, hpieces, extend]

theorem cut_eq_singleton {p : Char → Bool} {cs : List Char} (h : ∀ c ∈ cs, p c = false) :
    cut p cs = [cs] := by
  induction cs with
  | nil => rfl
  | cons c cs ih =>
    rw [List.forall_mem_cons] at h
    rw [cut_cons, ih h.2]
    simp [h.1, extend]

/-- The maximal runs of characters that do not satisfy `p`, in order. -/
def segments (p : Char → Bool) (cs : List Char) : List String :=
  ((cut p cs).filter (fun piece => !piece.isEmpty)).map String.ofList

/-- A character that is cut at separates the segments before it from those after it. -/
theorem segments_append_cons {p : Char → Bool} {c : Char} (hc : p c = true) (cs ds : List Char) :
    segments p (cs ++ c :: ds) = segments p cs ++ segments p ds := by
  simp [segments, cut_append_cons hc]

theorem segments_append_of_all {p : Char → Bool} {cs : List Char} (h : ∀ c ∈ cs, p c = true)
    (ds : List Char) : segments p (cs ++ ds) = segments p ds := by
  induction cs with
  | nil => rfl
  | cons c cs ih =>
    rw [List.forall_mem_cons] at h
    exact (segments_append_cons h.1 [] (cs ++ ds)).trans (ih h.2)

theorem segments_eq_singleton {p : Char → Bool} {segment : String} (hne : segment.toList ≠ [])
    (h : ∀ c ∈ segment.toList, p c = false) : segments p segment.toList = [segment] := by
  rw [segments, cut_eq_singleton h]
  simp [hne]

/-- Segments that are joined by characters that are cut at are read as they were. -/
theorem segments_intercalate {p : Char → Bool} {between : String} (hne : between.toList ≠ [])
    (hbetween : ∀ c ∈ between.toList, p c = true) {items : List String}
    (h : ∀ item ∈ items, segments p item.toList = [item]) :
    segments p (String.intercalate between items).toList = items := by
  induction items with
  | nil => rfl
  | cons item items ih =>
    rw [List.forall_mem_cons] at h
    cases items with
    | nil =>
      rw [String.intercalate_singleton]
      exact h.1
    | cons next items =>
      obtain ⟨c, more, hmore⟩ := List.exists_cons_of_ne_nil hne
      rw [hmore, List.forall_mem_cons] at hbetween
      rw [String.intercalate_cons_cons, String.toList_append, String.toList_append, hmore,
        List.append_assoc, List.cons_append, segments_append_cons hbetween.1,
        segments_append_of_all hbetween.2, h.1, ih h.2]
      rfl

/-- A blank separates the words before it from those after it. -/
theorem words_append_cons {c : Char} (hc : isBlank c = true) (cs ds : List Char) :
    words (cs ++ c :: ds) = words cs ++ words ds :=
  segments_append_cons hc cs ds

theorem words_eq_nil {cs : List Char} (h : ∀ c ∈ cs, isBlank c = true) : words cs = [] := by
  have hall := segments_append_of_all h []
  rwa [List.append_nil] at hall

theorem words_eq_singleton {word : String} (hne : word.toList ≠ [])
    (h : ∀ c ∈ word.toList, isBlank c = false) : words word.toList = [word] :=
  segments_eq_singleton hne h

/-- A word is made of characters of the text. -/
theorem mem_of_mem_words {cs : List Char} {word : String} (h : word ∈ words cs) {c : Char}
    (hc : c ∈ word.toList) : c ∈ cs := by
  obtain ⟨piece, hpiece, rfl⟩ := List.mem_map.mp h
  rw [String.toList_ofList] at hc
  have hflatten : c ∈ (cut isBlank cs).flatten :=
    List.mem_flatten_of_mem (List.mem_filter.mp hpiece).1 hc
  rw [flatten_cut] at hflatten
  exact (List.mem_filter.mp hflatten).1

theorem trim_append_of_all {p : Char → Bool} {cs ends : List Char} (h : ∀ c ∈ ends, p c = true) :
    trim p (cs ++ ends) = trim p cs := by
  have hends : ends.dropWhile p = [] := List.dropWhile_eq_nil_iff.mpr h
  have hreverse : ends.reverse.dropWhile p = [] :=
    List.dropWhile_eq_nil_iff.mpr fun c hc => h c (List.mem_reverse.mp hc)
  unfold trim
  rw [List.dropWhile_append]
  by_cases hempty : (cs.dropWhile p).isEmpty = true
  · rw [if_pos hempty, hends, List.isEmpty_iff.mp hempty]
  · rw [if_neg hempty, List.reverse_append, List.dropWhile_append, hreverse]
    rfl

end StackRover.Text

namespace StackRover.Program

open Text

/-! ## Code and comments -/

/-- Whether the character opens or closes a comment. -/
def isMark (c : Char) : Bool := c == commentMark

theorem isMark_eq_false_iff {c : Char} : isMark c = false ↔ c ≠ commentMark :=
  beq_eq_false_iff_ne

theorem isMark_of_isBlank {c : Char} (h : isBlank c = true) : isMark c = false := by
  rw [isMark_eq_false_iff]
  rintro rfl
  cases h

/-- The terms of a text, given as its characters. -/
def terms (cs : List Char) : List String := (keepCode (cut isMark cs)).flatMap words

theorem tokenize_eq (text : String) : tokenize text = terms text.toList := rfl

theorem terms_code {code : List Char} (h : ∀ c ∈ code, isMark c = false) :
    terms code = words code := by
  simp [terms, cut_eq_singleton h, keepCode]

/-- A comment that is not closed reaches to the end of its line. -/
theorem terms_trailing {code comment : List Char} (hcode : ∀ c ∈ code, isMark c = false)
    (hcomment : ∀ c ∈ comment, isMark c = false) :
    terms (code ++ commentMark :: comment) =
      words code ++ words (comment.dropWhile fun c => !isLineBreak c) := by
  have hmark : isMark commentMark = true := rfl
  simp [terms, cut_append_cons hmark, cut_eq_singleton hcode, cut_eq_singleton hcomment, keepCode]

/-- A closed comment separates the code before it from what follows. -/
theorem terms_paired {code comment : List Char} (hcode : ∀ c ∈ code, isMark c = false)
    (hcomment : ∀ c ∈ comment, isMark c = false) (rest : List Char) :
    terms (code ++ commentMark :: (comment ++ commentMark :: rest)) = words code ++ terms rest := by
  have hmark : isMark commentMark = true := rfl
  obtain ⟨next, more, hrest⟩ := List.exists_cons_of_ne_nil (cut_ne_nil isMark rest)
  rw [terms, cut_append_cons hmark, cut_append_cons hmark, cut_eq_singleton hcode,
    cut_eq_singleton hcomment, hrest]
  simp only [List.singleton_append, keepCode_pair, List.flatMap_cons]
  rw [← hrest]
  rfl

theorem exists_first_mark (cs : List Char) :
    (∀ c ∈ cs, isMark c = false) ∨
      ∃ code rest, cs = code ++ commentMark :: rest ∧ ∀ c ∈ code, isMark c = false := by
  by_cases hmark : commentMark ∈ cs
  · obtain ⟨code, rest, rfl, hcode⟩ := List.eq_append_cons_of_mem hmark
    refine Or.inr ⟨code, rest, rfl, fun c hc => ?_⟩
    rw [isMark_eq_false_iff]
    rintro rfl
    exact hcode hc
  · refine Or.inl fun c hc => ?_
    rw [isMark_eq_false_iff]
    rintro rfl
    exact hmark hc

/-- A text is code, or code and a comment that is not closed, or it starts with code and a closed
comment. -/
theorem terms_induction {motive : List Char → Prop}
    (code : ∀ code, (∀ c ∈ code, isMark c = false) → motive code)
    (trailing : ∀ code comment, (∀ c ∈ code, isMark c = false) → (∀ c ∈ comment, isMark c = false) →
      motive (code ++ commentMark :: comment))
    (paired : ∀ code comment rest, (∀ c ∈ code, isMark c = false) →
      (∀ c ∈ comment, isMark c = false) → motive rest →
      motive (code ++ commentMark :: (comment ++ commentMark :: rest)))
    (cs : List Char) : motive cs := by
  generalize hlength : cs.length = length
  induction length using Nat.strongRecOn generalizing cs with
  | ind length ih =>
    rcases exists_first_mark cs with hcode | ⟨first, rest, rfl, hfirst⟩
    · exact code cs hcode
    · rcases exists_first_mark rest with hcomment | ⟨comment, more, rfl, hcomment⟩
      · exact trailing first rest hfirst hcomment
      · refine paired first comment more hfirst hcomment (ih more.length ?_ more rfl)
        simp only [List.length_append, List.length_cons] at hlength
        omega

/-! ## Terms -/

/-- The term can stand in a program text: it is not empty, and holds neither blanks nor comment
marks. -/
structure IsTerm (term : String) : Prop where
  ne_nil : term.toList ≠ []
  not_blank : ∀ c ∈ term.toList, isBlank c = false
  not_mark : ∀ c ∈ term.toList, isMark c = false

theorem isTerm_of_mem_words {cs : List Char} (h : ∀ c ∈ cs, isMark c = false) {term : String}
    (hterm : term ∈ words cs) : IsTerm term := by
  obtain ⟨hne, hblank⟩ := ne_nil_and_not_isBlank_of_mem_words hterm
  exact ⟨hne, hblank, fun c hc => h c (mem_of_mem_words hterm hc)⟩

/-- All that is read from a text are terms. -/
theorem isTerm_of_mem_tokenize {text term : String} (h : term ∈ tokenize text) : IsTerm term := by
  rw [tokenize_eq] at h
  generalize text.toList = cs at h
  induction cs using terms_induction with
  | code code hcode =>
    rw [terms_code hcode] at h
    exact isTerm_of_mem_words hcode h
  | trailing code comment hcode hcomment =>
    rw [terms_trailing hcode hcomment, List.mem_append] at h
    rcases h with hbefore | hafter
    · exact isTerm_of_mem_words hcode hbefore
    · exact isTerm_of_mem_words
        (fun c hc => hcomment c ((List.dropWhile_sublist _).subset hc)) hafter
  | paired code comment rest hcode hcomment ih =>
    rw [terms_paired hcode hcomment, List.mem_append] at h
    rcases h with hbefore | hafter
    · exact isTerm_of_mem_words hcode hbefore
    · exact ih hafter

theorem IsTerm.words_eq {term : String} (h : IsTerm term) : words term.toList = [term] :=
  words_eq_singleton h.ne_nil h.not_blank

/-- Terms that are joined by blanks are the words of the text. -/
theorem words_intercalate {body : List String} (h : ∀ term ∈ body, IsTerm term) :
    words (String.intercalate " " body).toList = body :=
  segments_intercalate (by simp) (by simp [isBlank]) fun term hterm => (h term hterm).words_eq

theorem not_mark_intercalate {body : List String} (h : ∀ term ∈ body, IsTerm term) :
    ∀ c ∈ (String.intercalate " " body).toList, isMark c = false := by
  induction body with
  | nil => simp
  | cons term body ih =>
    rw [List.forall_mem_cons] at h
    cases body with
    | nil =>
      rw [String.intercalate_singleton]
      exact h.1.not_mark
    | cons next body =>
      intro c hc
      rw [String.intercalate_cons_cons] at hc
      simp only [String.toList_append, List.append_assoc, List.mem_append] at hc
      rcases hc with hterm | hblank | hrest
      · exact h.1.not_mark c hterm
      · have heq : c = ' ' := by simpa using hblank
        subst heq
        rfl
      · exact ih h.2 c hrest

/-! ## Lines -/

/-- Code whose comments are closed is read before what follows the blank after it. -/
theorem terms_append_cons {cs : List Char} (heven : Even (cs.count commentMark)) {blank : Char}
    (hblank : isBlank blank = true) (rest : List Char) :
    terms (cs ++ blank :: rest) = terms cs ++ terms rest := by
  have hmark : isMark blank = false := isMark_of_isBlank hblank
  have hcount : ∀ {code : List Char}, (∀ c ∈ code, isMark c = false) → code.count commentMark = 0 :=
    fun h => List.count_eq_zero.mpr fun hmem => Bool.noConfusion (h _ hmem)
  induction cs using terms_induction with
  | code code hcode =>
    -- The code goes on behind the blank, as far as to the first comment of the rest.
    have hcode' : ∀ more : List Char, (∀ c ∈ more, isMark c = false) →
        ∀ c ∈ code ++ blank :: more, isMark c = false := by
      intro more hmore c hc
      rcases List.mem_append.mp hc with hmem | hmem
      · exact hcode c hmem
      · rcases List.mem_cons.mp hmem with rfl | hmem
        · exact hmark
        · exact hmore c hmem
    rw [terms_code hcode]
    rcases exists_first_mark rest with hrest | ⟨first, rest, rfl, hfirst⟩
    · rw [terms_code (hcode' rest hrest), terms_code hrest, words_append_cons hblank]
    · have hassoc : ∀ tail : List Char, code ++ blank :: (first ++ commentMark :: tail) =
          (code ++ blank :: first) ++ commentMark :: tail := by simp
      rw [hassoc]
      rcases exists_first_mark rest with hcomment | ⟨comment, more, rfl, hcomment⟩
      · rw [terms_trailing (hcode' first hfirst) hcomment, terms_trailing hfirst hcomment,
          words_append_cons hblank, List.append_assoc]
      · rw [terms_paired (hcode' first hfirst) hcomment, terms_paired hfirst hcomment,
          words_append_cons hblank, List.append_assoc]
  | trailing code comment hcode hcomment =>
    rw [List.count_append, List.count_cons_self, hcount hcode, hcount hcomment] at heven
    exact absurd heven (by decide)
  | paired code comment more hcode hcomment ih =>
    rw [List.count_append, List.count_cons_self, List.count_append, List.count_cons_self,
      hcount hcode, hcount hcomment] at heven
    have heven' : Even (more.count commentMark) := by
      rw [Nat.even_iff] at heven ⊢
      omega
    rw [List.append_assoc, List.cons_append, List.append_assoc, List.cons_append,
      terms_paired hcode hcomment, terms_paired hcode hcomment, ih heven', List.append_assoc]

/-- Lines whose comments are closed are read one after the other; the last line may end in a
comment. -/
theorem tokenize_lines {lines : List String}
    (h : ∀ line ∈ lines.dropLast, Even (line.toList.count commentMark)) :
    tokenize (String.intercalate "\n" lines) = lines.flatMap tokenize := by
  induction lines with
  | nil => rfl
  | cons line lines ih =>
    cases lines with
    | nil => simp
    | cons next lines =>
      rw [List.dropLast_cons_cons, List.forall_mem_cons] at h
      have hjoin : (String.intercalate "\n" (line :: next :: lines)).toList =
          line.toList ++ '\n' :: (String.intercalate "\n" (next :: lines)).toList := by
        rw [String.intercalate_cons_cons]
        simp
      rw [tokenize_eq, hjoin, terms_append_cons h.1 rfl, ← tokenize_eq, ← tokenize_eq, ih h.2,
        List.flatMap_cons (x := line)]

/-- Code is read behind a line break as it is alone, whatever stands before the break: a comment
that is not closed ends there at the latest. -/
theorem terms_append_lineBreak {lineBreak : Char} (hbreak : isLineBreak lineBreak = true)
    {code : List Char} (hcode : ∀ c ∈ code, isMark c = false) (cs : List Char) :
    terms (cs ++ lineBreak :: code) = terms cs ++ words code := by
  have hblank : isBlank lineBreak = true := isBlank_of_isLineBreak hbreak
  have hmark : isMark lineBreak = false := isMark_of_isBlank hblank
  have happend : ∀ {before : List Char}, (∀ c ∈ before, isMark c = false) →
      ∀ c ∈ before ++ lineBreak :: code, isMark c = false := by
    intro before hbefore c hc
    rcases List.mem_append.mp hc with hmem | hmem
    · exact hbefore c hmem
    · rcases List.mem_cons.mp hmem with rfl | hmem
      · exact hmark
      · exact hcode c hmem
  induction cs using terms_induction with
  | code before hbefore =>
    rw [terms_code (happend hbefore), terms_code hbefore, words_append_cons hblank]
  | trailing before comment hbefore hcomment =>
    rw [List.append_assoc, List.cons_append, terms_trailing hbefore (happend hcomment),
      terms_trailing hbefore hcomment, List.dropWhile_append, List.append_assoc]
    congr 1
    -- A comment without a line break is dropped as a whole, up to the break behind it.
    split
    · rename_i hempty
      have hstop : (lineBreak :: code).dropWhile (fun c => !isLineBreak c) = lineBreak :: code := by
        simp [hbreak]
      rw [List.isEmpty_iff.mp hempty, hstop]
      exact words_append_cons hblank [] code
    · exact words_append_cons hblank _ code
  | paired before comment rest hbefore hcomment ih =>
    rw [List.append_assoc, List.cons_append, List.append_assoc, List.cons_append,
      terms_paired hbefore hcomment, terms_paired hbefore hcomment, ih, List.append_assoc]

/-- Line breaks at the end of a text do not matter. -/
theorem terms_append_of_lineBreak {cs breaks : List Char} (h : ∀ c ∈ breaks, isLineBreak c = true) :
    terms (cs ++ breaks) = terms cs := by
  cases breaks with
  | nil => rw [List.append_nil]
  | cons first breaks =>
    rw [List.forall_mem_cons] at h
    have hblank : ∀ c ∈ breaks, isBlank c = true := fun c hc => isBlank_of_isLineBreak (h.2 c hc)
    have hmark : ∀ c ∈ breaks, isMark c = false := fun c hc => isMark_of_isBlank (hblank c hc)
    rw [terms_append_lineBreak h.1 hmark, words_eq_nil hblank, List.append_nil]

/-- **Texts are read line by line.** If all comments of a text are closed, or if there is no comment
mark in the text behind it, then the terms of the two with a line break between them are the terms
of the first and those of the second. And the terms of a text that are joined by blanks are read as
they were. -/
theorem tokenize_append_line :
    (∀ first second : String, Even (first.toList.count '#') ∨ '#' ∉ second.toList →
      tokenize (first ++ "\n" ++ second) = tokenize first ++ tokenize second) ∧
    ∀ text : String, tokenize (String.intercalate " " (tokenize text)) = tokenize text := by
  refine ⟨?_, ?_⟩
  · intro first second h
    have hjoin : (first ++ "\n" ++ second).toList = first.toList ++ '\n' :: second.toList := by simp
    rw [tokenize_eq, tokenize_eq, tokenize_eq, hjoin]
    rcases h with heven | hcode
    · exact terms_append_cons heven rfl _
    · have hmark : ∀ c ∈ second.toList, isMark c = false := by
        intro c hc
        rw [isMark_eq_false_iff]
        rintro rfl
        exact hcode hc
      rw [terms_append_lineBreak rfl hmark, terms_code hmark]
  · intro text
    have hterms : ∀ term ∈ tokenize text, IsTerm term := fun term => isTerm_of_mem_tokenize
    rw [tokenize_eq (String.intercalate " " _), terms_code (not_mark_intercalate hterms),
      words_intercalate hterms]

/-- The comment in the first text is not closed and ends with its line, a carriage return included;
the one in the second text is closed two lines later, and what stands behind it is read with a
comment of its own. -/
theorem tokenize_append_line_comments :
    ('#' ∉ "DUP".toList ∧ tokenize ("PUSH 1#one\r" ++ "\n" ++ "DUP") = ["PUSH", "1", "DUP"]) ∧
    (Even ("UP#x\n\ny#DOWN".toList.count '#') ∧
      tokenize ("UP#x\n\ny#DOWN" ++ "\n" ++ "LEFT#z") = ["UP", "DOWN", "LEFT"]) ∧
    tokenize (String.intercalate " " (tokenize "UP#x\n\ny#DOWN")) = ["UP", "DOWN"] := by
  refine ⟨⟨by decide, ?_⟩, ⟨by decide, ?_⟩, ?_⟩
  · rw [tokenize_append_line.1 _ _ (Or.inr (by decide))]
    decide
  · rw [tokenize_append_line.1 _ _ (Or.inl (by decide))]
    decide
  · rw [tokenize_append_line.2]
    decide

end StackRover.Program

namespace StackRover.Prompt

open Text

/-- What is dropped from the end of a line are line ends. -/
theorem toList_chomp (text : String) :
    ∃ ends, text.toList = (chomp text).toList ++ ends ∧ ∀ c ∈ ends, isLineEnd c = true := by
  refine ⟨(text.toList.reverse.takeWhile isLineEnd).reverse, ?_, fun c hc => ?_⟩
  · rw [chomp, String.toList_ofList, ← List.reverse_append, List.takeWhile_append_dropWhile,
      List.reverse_reverse]
  · exact List.all_eq_true.mp List.all_takeWhile c (List.mem_reverse.mp hc)

theorem isLineBreak_of_isLineEnd {c : Char} (h : isLineEnd c = true) : isLineBreak c = true := by
  rw [isLineEnd, Bool.or_eq_true, beq_iff_eq, beq_iff_eq] at h
  rcases h with rfl | rfl
  · rfl
  · rfl

/-- Line ends at the end of a line do not change its terms. -/
theorem tokenize_chomp (text : String) :
    Program.tokenize (chomp text) = Program.tokenize text := by
  obtain ⟨ends, htext, hends⟩ := toList_chomp text
  rw [Program.tokenize_eq, Program.tokenize_eq, htext]
  exact (Program.terms_append_of_lineBreak fun c hc => isLineBreak_of_isLineEnd (hends c hc)).symm

/-- Nor do they change what the line asks for. -/
theorem ofLine_chomp (text : String) : Command.ofLine (chomp text) = Command.ofLine text := by
  obtain ⟨ends, htext, hends⟩ := toList_chomp text
  have hstrip : strip (chomp text) = strip text := by
    rw [strip, strip, htext, trim_append_of_all fun c hc =>
      isBlank_of_isLineBreak (isLineBreak_of_isLineEnd (hends c hc))]
  simp only [Command.ofLine, hstrip]

end StackRover.Prompt
