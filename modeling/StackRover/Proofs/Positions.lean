import Mathlib.Algebra.Ring.Parity
import StackRover.Proofs.ProgramText

/-!
# Where the terms of a text stand

The terms of a text are found by cutting it at the comment marks and then at blanks. Here they are
described by positions instead: which characters of the text are commented out, and which runs of
the others are terms.

* `marks`, `Commented`, `Shown`: the comment marks, the characters that are commented out, and the
  characters that are left; a comment is `Enclosed` by two marks, or `Trailing` behind the last one.
* `IsRun`, `Runs`: runs of positions that cannot be made longer.
* `Runs.append`: the runs of a text with a gap in it are those before the gap and those behind it.
* `words_reads`, `terms_reads`: words and terms stand in such runs.
* `tokenize_runs`: the terms of a text are its runs of characters that are left, in order.
-/

namespace StackRover.Program

open Text

/-! ## Comments -/

/-- The characters that end a line, one by one. -/
def lineBreaks : List Char :=
  ['\n', '\r', '\x0b', '\x0c', '\x1c', '\x1d', '\x1e', '\u0085', '\u2028', '\u2029']

/-- The positions of the comment marks, from left to right. -/
def marks (cs : List Char) : List Nat :=
  (List.range cs.length).filter fun i => cs[i]? == some commentMark

/-- The position lies between the marks that open and close a comment. -/
def Enclosed (cs : List Char) (i : Nat) : Prop :=
  ∃ j first second, (marks cs)[2 * j]? = some first ∧ (marks cs)[2 * j + 1]? = some second ∧
    first < i ∧ i < second

/-- The last mark opens a comment that is not closed, and the position lies behind it with no line
break on the way. -/
def Trailing (cs : List Char) (i : Nat) : Prop :=
  Odd (marks cs).length ∧ ∃ last, (marks cs).getLast? = some last ∧ last < i ∧
    ∀ k c, last ≤ k → k ≤ i → cs[k]? = some c → c ∉ lineBreaks

/-- The position is commented out. -/
def Commented (cs : List Char) (i : Nat) : Prop := Enclosed cs i ∨ Trailing cs i

/-- The character at the position is no comment mark, no blank, and not commented out. -/
def Shown (cs : List Char) (i : Nat) : Prop :=
  ∃ c, cs[i]? = some c ∧ c ≠ commentMark ∧ isBlank c = false ∧ ¬ Commented cs i

theorem isLineBreak_iff (c : Char) : isLineBreak c = true ↔ c ∈ lineBreaks := by
  constructor
  · intro h
    have hcode : c.toNat ∈ lineBreaks.map Char.toNat := by
      simp only [isLineBreak, Bool.or_eq_true, Bool.and_eq_true, decide_eq_true_eq,
        beq_iff_eq] at h
      have hcodes : lineBreaks.map Char.toNat =
          [0x0A, 0x0D, 0x0B, 0x0C, 0x1C, 0x1D, 0x1E, 0x85, 0x2028, 0x2029] := by decide
      rw [hcodes]
      simp only [List.mem_cons, List.not_mem_nil, or_false]
      omega
    obtain ⟨d, hd, heq⟩ := List.mem_map.mp hcode
    have hcd : d = c := by
      rw [← Char.ofNat_toNat d, heq, Char.ofNat_toNat]
    rw [← hcd]
    exact hd
  · have hall : lineBreaks.all isLineBreak = true := rfl
    exact List.all_eq_true.mp hall c

theorem getElem?_length_add (cs ds : List Char) (i : Nat) :
    (cs ++ ds)[cs.length + i]? = ds[i]? := by
  rw [List.getElem?_append_right (by omega), Nat.add_sub_cancel_left]

theorem marks_append (cs ds : List Char) :
    marks (cs ++ ds) = marks cs ++ (marks ds).map (cs.length + ·) := by
  unfold marks
  rw [List.length_append, List.range_add, List.filter_append, List.filter_map]
  congr 1
  · apply List.filter_congr
    intro i hi
    rw [List.getElem?_append_left (List.mem_range.mp hi)]
  · congr 1
    apply List.filter_congr
    intro i _
    show ((cs ++ ds)[cs.length + i]? == some commentMark) = _
    rw [getElem?_length_add]

theorem marks_eq_nil {cs : List Char} (h : ∀ c ∈ cs, isMark c = false) : marks cs = [] := by
  apply List.filter_eq_nil_iff.mpr
  intro i _ hmark
  have hmem : commentMark ∈ cs := List.mem_of_getElem? (eq_of_beq hmark)
  cases h _ hmem

theorem marks_singleton : marks [commentMark] = [0] := by decide

theorem not_commented_of_marks {cs : List Char} (h : marks cs = []) (k : Nat) :
    ¬ Commented cs k := by
  rintro (⟨j, first, second, hfirst, -⟩ | ⟨hodd, -⟩)
  · rw [h] at hfirst
    cases hfirst
  · rw [h] at hodd
    exact absurd hodd (by decide)

section Rest

/-! A text that starts with a closed comment has the comments of the rest, further to the right. -/

variable {start rest : List Char} {first second : Nat}

theorem enclosed_append (hall : marks (start ++ rest) =
    first :: second :: (marks rest).map (start.length + ·)) (k : Nat) :
    Enclosed (start ++ rest) k ↔
      (first < k ∧ k < second) ∨ ∃ i, k = start.length + i ∧ Enclosed rest i := by
  unfold Enclosed
  rw [hall]
  constructor
  · rintro ⟨j, opening, closing, hopening, hclosing, hlt, hlt'⟩
    cases j with
    | zero =>
      cases hopening
      cases hclosing
      exact Or.inl ⟨hlt, hlt'⟩
    | succ j =>
      have hindex : 2 * (j + 1) = 2 * j + 2 := by omega
      rw [hindex, List.getElem?_cons_succ, List.getElem?_cons_succ, List.getElem?_map,
        Option.map_eq_some_iff] at hopening
      rw [hindex, List.getElem?_cons_succ, List.getElem?_cons_succ, List.getElem?_map,
        Option.map_eq_some_iff] at hclosing
      obtain ⟨a, ha, rfl⟩ := hopening
      obtain ⟨b, hb, rfl⟩ := hclosing
      refine Or.inr ⟨k - start.length, by omega, j, a, b, ha, hb, by omega, by omega⟩
  · rintro (⟨hlt, hlt'⟩ | ⟨i, rfl, j, a, b, ha, hb, hlt, hlt'⟩)
    · exact ⟨0, first, second, rfl, rfl, hlt, hlt'⟩
    · refine ⟨j + 1, start.length + a, start.length + b, ?_, ?_, by omega, by omega⟩
      · show ((marks rest).map (start.length + ·))[2 * j]? = _
        rw [List.getElem?_map, ha]
        rfl
      · show ((marks rest).map (start.length + ·))[2 * j + 1]? = _
        rw [List.getElem?_map, hb]
        rfl

theorem trailing_append (hall : marks (start ++ rest) =
    first :: second :: (marks rest).map (start.length + ·)) (k : Nat) :
    Trailing (start ++ rest) k ↔ ∃ i, k = start.length + i ∧ Trailing rest i := by
  have hodd : Odd (marks (start ++ rest)).length ↔ Odd (marks rest).length := by
    rw [hall, List.length_cons, List.length_cons, List.length_map, Nat.odd_iff, Nat.odd_iff]
    omega
  have hlast : Odd (marks rest).length →
      (marks (start ++ rest)).getLast? = (marks rest).getLast?.map (start.length + ·) := by
    intro hrest
    have hne : marks rest ≠ [] := by
      intro hnil
      rw [hnil] at hrest
      exact absurd hrest (by decide)
    obtain ⟨mark, more, hcons⟩ := List.exists_cons_of_ne_nil hne
    rw [hall, ← List.getLast?_map, hcons, List.map_cons, List.getLast?_cons_cons,
      List.getLast?_cons_cons]
  unfold Trailing
  constructor
  · rintro ⟨hlength, last, hmark, hlt, hbreaks⟩
    have hrest := hodd.mp hlength
    rw [hlast hrest, Option.map_eq_some_iff] at hmark
    obtain ⟨a, ha, rfl⟩ := hmark
    refine ⟨k - start.length, by omega, hrest, a, ha, by omega, ?_⟩
    intro i c hle hle' hc
    apply hbreaks (start.length + i) c (by omega) (by omega)
    rw [getElem?_length_add]
    exact hc
  · rintro ⟨i, rfl, hrest, a, ha, hlt, hbreaks⟩
    refine ⟨hodd.mpr hrest, start.length + a, ?_, by omega, ?_⟩
    · rw [hlast hrest, ha]
      rfl
    · intro l c hle hle' hc
      have hl : l = start.length + (l - start.length) := by omega
      rw [hl, getElem?_length_add] at hc
      exact hbreaks (l - start.length) c (by omega) (by omega) hc

theorem commented_append (hmarks : marks start = [first, second]) (k : Nat) :
    Commented (start ++ rest) k ↔
      (first < k ∧ k < second) ∨ ∃ i, k = start.length + i ∧ Commented rest i := by
  have hall : marks (start ++ rest) =
      first :: second :: (marks rest).map (start.length + ·) := by
    rw [marks_append, hmarks]
    rfl
  unfold Commented
  rw [enclosed_append hall, trailing_append hall]
  constructor
  · rintro ((hbetween | ⟨i, hk, henclosed⟩) | ⟨i, hk, htrailing⟩)
    · exact Or.inl hbetween
    · exact Or.inr ⟨i, hk, Or.inl henclosed⟩
    · exact Or.inr ⟨i, hk, Or.inr htrailing⟩
  · rintro (hbetween | ⟨i, hk, henclosed | htrailing⟩)
    · exact Or.inl (Or.inl hbetween)
    · exact Or.inl (Or.inr ⟨i, hk, henclosed⟩)
    · exact Or.inr ⟨i, hk, htrailing⟩

theorem commented_behind (hmarks : marks start = [first, second]) (hsecond : second < start.length)
    (i : Nat) : Commented (start ++ rest) (start.length + i) ↔ Commented rest i := by
  rw [commented_append hmarks]
  constructor
  · rintro (⟨-, hlt⟩ | ⟨i', hi, hrest⟩)
    · omega
    · have heq : i = i' := by omega
      rw [heq]
      exact hrest
  · intro hrest
    exact Or.inr ⟨i, rfl, hrest⟩

end Rest

/-- Behind a single mark the comment reaches to the first line break. -/
theorem commented_of_marks {cs : List Char} {mark : Nat} (h : marks cs = [mark]) (k : Nat) :
    Commented cs k ↔
      mark < k ∧ ∀ l c, mark ≤ l → l ≤ k → cs[l]? = some c → c ∉ lineBreaks := by
  constructor
  · rintro (⟨j, first, second, -, hsecond, -⟩ | ⟨-, last, hlast, hlt, hbreaks⟩)
    · rw [h] at hsecond
      cases hsecond
    · rw [h] at hlast
      cases hlast
      exact ⟨hlt, hbreaks⟩
  · rintro ⟨hlt, hbreaks⟩
    refine Or.inr ⟨?_, mark, ?_, hlt, hbreaks⟩
    · rw [h]
      exact odd_one
    · rw [h]
      rfl

/-- From its first line break on, what stands behind a single mark is not commented out. -/
theorem not_commented_of_lineBreak {cs : List Char} {mark position k : Nat} {c : Char}
    (h : marks cs = [mark]) (hc : cs[position]? = some c) (hbreak : c ∈ lineBreaks)
    (hmark : mark ≤ position) (hk : position ≤ k) : ¬ Commented cs k := by
  rw [commented_of_marks h]
  rintro ⟨-, hbreaks⟩
  exact hbreaks position c hmark hk hc hbreak

theorem marks_trailing {code comment : List Char} (hcode : ∀ c ∈ code, isMark c = false)
    (hcomment : ∀ c ∈ comment, isMark c = false) :
    marks (code ++ commentMark :: comment) = [code.length] := by
  have hcons : code ++ commentMark :: comment = code ++ ([commentMark] ++ comment) := rfl
  rw [hcons, marks_append, marks_append, marks_eq_nil hcode, marks_eq_nil hcomment, marks_singleton]
  rfl

theorem marks_paired {code comment : List Char} (hcode : ∀ c ∈ code, isMark c = false)
    (hcomment : ∀ c ∈ comment, isMark c = false) :
    marks (code ++ commentMark :: (comment ++ [commentMark])) =
      [code.length, code.length + (1 + comment.length)] := by
  have hcons : code ++ commentMark :: (comment ++ [commentMark]) =
      code ++ ([commentMark] ++ (comment ++ [commentMark])) := rfl
  rw [hcons, marks_append, marks_append, marks_append, marks_eq_nil hcode, marks_eq_nil hcomment,
    marks_singleton]
  rfl

/-! ## Runs of positions -/

/-- All positions from `first` on and before `stop` satisfy the property, and the run cannot be made
longer. -/
structure IsRun (shown : Nat → Prop) (first stop : Nat) : Prop where
  nonempty : first < stop
  within : ∀ k, first ≤ k → k < stop → shown k
  starts : ∀ k, k + 1 = first → ¬ shown k
  stops : ¬ shown stop

/-- The spans are the runs of positions that satisfy the property, from left to right. -/
structure Runs (shown : Nat → Prop) (spans : List (Nat × Nat)) : Prop where
  ordered : spans.Pairwise fun span later => span.2 < later.1
  mem_iff : ∀ first stop, (first, stop) ∈ spans ↔ IsRun shown first stop

/-- Every position of a run satisfies the property, so what bounds those bounds the run. -/
theorem IsRun.stop_le {shown : Nat → Prop} {first stop bound : Nat} (h : IsRun shown first stop)
    (hbound : ∀ k, shown k → k < bound) : stop ≤ bound := by
  have hlt := h.nonempty
  have hlast := hbound (stop - 1) (h.within (stop - 1) (by omega) (by omega))
  omega

theorem IsRun.congr {shown other : Nat → Prop} {first stop : Nat} (h : IsRun shown first stop)
    (hsame : ∀ k, k ≤ stop → (shown k ↔ other k)) : IsRun other first stop := by
  have hlt := h.nonempty
  refine ⟨hlt, ?_, ?_, ?_⟩
  · intro k hle hk
    exact (hsame k (by omega)).mp (h.within k hle hk)
  · intro k hk hother
    exact h.starts k hk ((hsame k (by omega)).mpr hother)
  · intro hother
    exact h.stops ((hsame stop (Nat.le_refl _)).mpr hother)

section Gap

variable {left right shown : Nat → Prop} {offset : Nat}

/-- Behind a gap the runs are those of what stands there, further to the right. -/
theorem isRun_add_iff (hgap : ∀ k, k + 1 = offset → ¬ shown k)
    (hhigh : ∀ i, shown (offset + i) ↔ right i) (a b : Nat) :
    IsRun shown (offset + a) (offset + b) ↔ IsRun right a b := by
  constructor
  · rintro ⟨hlt, hshown, hstarts, hstops⟩
    refine ⟨by omega, ?_, ?_, ?_⟩
    · intro k hle hk
      exact (hhigh k).mp (hshown (offset + k) (by omega) (by omega))
    · intro k hk hright
      exact hstarts (offset + k) (by omega) ((hhigh k).mpr hright)
    · intro hright
      exact hstops ((hhigh b).mpr hright)
  · rintro ⟨hlt, hshown, hstarts, hstops⟩
    refine ⟨by omega, ?_, ?_, ?_⟩
    · intro k hle hk
      obtain ⟨i, rfl⟩ := Nat.exists_eq_add_of_le (show offset ≤ k by omega)
      exact (hhigh i).mpr (hshown i (by omega) (by omega))
    · intro k hk hsk
      by_cases hlow : k < offset
      · exact hgap k (by omega) hsk
      · obtain ⟨i, rfl⟩ := Nat.exists_eq_add_of_le (Nat.not_lt.mp hlow)
        exact hstarts i (by omega) ((hhigh i).mp hsk)
    · intro hsb
      exact hstops ((hhigh b).mp hsb)

/-- A gap before `offset` separates the runs to its left from those to its right. -/
theorem isRun_iff (hleft : ∀ k, left k → k + 1 < offset)
    (hlow : ∀ k, k < offset → (shown k ↔ left k)) (hhigh : ∀ i, shown (offset + i) ↔ right i)
    (first stop : Nat) :
    IsRun shown first stop ↔
      IsRun left first stop ∨
        ∃ a b, first = offset + a ∧ stop = offset + b ∧ IsRun right a b := by
  have hgap : ∀ k, k + 1 = offset → ¬ shown k := by
    intro k hk hshown
    have hlt := hleft k ((hlow k (by omega)).mp hshown)
    omega
  constructor
  · intro h
    have hlt := h.nonempty
    by_cases hfirst : first < offset
    · -- The run starts before the gap, so it does not reach the position right before `offset`.
      have hstop : stop < offset := by
        apply Classical.byContradiction
        intro hge
        exact hgap (offset - 1) (by omega) (h.within (offset - 1) (by omega) (by omega))
      exact Or.inl (h.congr fun k hk => hlow k (by omega))
    · obtain ⟨a, rfl⟩ := Nat.exists_eq_add_of_le (Nat.not_lt.mp hfirst)
      obtain ⟨b, rfl⟩ := Nat.exists_eq_add_of_le (show offset ≤ stop by omega)
      exact Or.inr ⟨a, b, rfl, rfl, (isRun_add_iff hgap hhigh a b).mp h⟩
  · rintro (h | ⟨a, b, rfl, rfl, h⟩)
    · have hlt := h.nonempty
      have hstop : stop ≤ offset - 1 := h.stop_le fun k hk => by
        have hlast := hleft k hk
        omega
      exact h.congr fun k hk => (hlow k (by omega)).symm
    · exact (isRun_add_iff hgap hhigh a b).mpr h

/-- The span further to the right. -/
def shift (offset : Nat) (span : Nat × Nat) : Nat × Nat := (offset + span.1, offset + span.2)

/-- The runs of a text with a gap in it are those before the gap and those behind it. -/
theorem Runs.append {before after : List (Nat × Nat)} (hbefore : Runs left before)
    (hafter : Runs right after) (hleft : ∀ k, left k → k + 1 < offset)
    (hlow : ∀ k, k < offset → (shown k ↔ left k)) (hhigh : ∀ i, shown (offset + i) ↔ right i) :
    Runs shown (before ++ after.map (shift offset)) := by
  constructor
  · rw [List.pairwise_append]
    refine ⟨hbefore.ordered, ?_, ?_⟩
    · rw [List.pairwise_map]
      apply hafter.ordered.imp
      intro span later hlt
      show offset + span.2 < offset + later.1
      omega
    · intro span hspan later hlater
      have hrun := (hbefore.mem_iff span.1 span.2).mp hspan
      obtain ⟨origin, -, rfl⟩ := List.mem_map.mp hlater
      have hlt := hrun.nonempty
      have hstop : span.2 ≤ offset - 1 := hrun.stop_le fun k hk => by
        have hlast := hleft k hk
        omega
      show span.2 < offset + origin.1
      omega
  · intro first stop
    rw [isRun_iff hleft hlow hhigh, List.mem_append, hbefore.mem_iff, List.mem_map]
    constructor
    · rintro (hrun | ⟨⟨a, b⟩, hmem, heq⟩)
      · exact Or.inl hrun
      · cases heq
        exact Or.inr ⟨a, b, rfl, rfl, (hafter.mem_iff a b).mp hmem⟩
    · rintro (hrun | ⟨a, b, rfl, rfl, hrun⟩)
      · exact Or.inl hrun
      · exact Or.inr ⟨(a, b), (hafter.mem_iff a b).mpr hrun, rfl⟩

end Gap

/-! ## The text of a run -/

/-- The characters of a span. -/
def slice (cs : List Char) (span : Nat × Nat) : String :=
  String.ofList ((cs.take span.2).drop span.1)

theorem slice_append_left {cs : List Char} {span : Nat × Nat} (h : span.2 ≤ cs.length)
    (ds : List Char) : slice (cs ++ ds) span = slice cs span := by
  rw [slice, slice, List.take_append_of_le_length h]

theorem slice_append_right (cs ds : List Char) (span : Nat × Nat) :
    slice (cs ++ ds) (shift cs.length span) = slice ds span := by
  rw [slice, slice, shift, List.take_length_add_append, List.drop_length_add_append]

/-- The terms are the texts of the runs of positions that satisfy the property. -/
def Reads (cs : List Char) (shown : Nat → Prop) (terms : List String) : Prop :=
  ∃ spans, Runs shown spans ∧ terms = spans.map (slice cs)

/-- What is read from a text with a gap in it is read before the gap and behind it. -/
theorem Reads.append {code gap rest : List Char} {left right shown : Nat → Prop}
    {before after : List String} (hbefore : Reads code left before)
    (hafter : Reads rest right after) (hgap : gap ≠ []) (hleft : ∀ k, left k → k < code.length)
    (hlow : ∀ k, k < (code ++ gap).length → (shown k ↔ left k))
    (hhigh : ∀ i, shown ((code ++ gap).length + i) ↔ right i) :
    Reads (code ++ gap ++ rest) shown (before ++ after) := by
  obtain ⟨spans, hspans, rfl⟩ := hbefore
  obtain ⟨spans', hspans', rfl⟩ := hafter
  have hpos : 0 < gap.length := List.length_pos_iff.mpr hgap
  have hbound : ∀ k, left k → k + 1 < (code ++ gap).length := by
    intro k hk
    have := hleft k hk
    rw [List.length_append]
    omega
  refine ⟨_, hspans.append hspans' hbound hlow hhigh, ?_⟩
  rw [List.map_append, List.map_map]
  congr 1
  · apply List.map_congr_left
    intro span hspan
    have hrun := (hspans.mem_iff span.1 span.2).mp hspan
    rw [List.append_assoc, slice_append_left (hrun.stop_le hleft)]
  · apply List.map_congr_left
    intro span _
    exact (slice_append_right (code ++ gap) rest span).symm

/-! ## Words -/

/-- There is a character at the position, and it is no blank. -/
def Lettered (cs : List Char) (i : Nat) : Prop := ∃ c, cs[i]? = some c ∧ isBlank c = false

theorem Lettered.lt {cs : List Char} {i : Nat} (h : Lettered cs i) : i < cs.length := by
  obtain ⟨c, hc, -⟩ := h
  exact (List.getElem?_eq_some_iff.mp hc).1

theorem lettered_iff_lt {cs : List Char} (h : ∀ c ∈ cs, isBlank c = false) (i : Nat) :
    Lettered cs i ↔ i < cs.length := by
  constructor
  · exact Lettered.lt
  · intro hlt
    exact ⟨cs[i], List.getElem?_eq_getElem hlt, h _ (List.getElem_mem hlt)⟩

theorem lettered_append_left {cs ds : List Char} {k : Nat} (h : k < cs.length) :
    Lettered (cs ++ ds) k ↔ Lettered cs k := by
  unfold Lettered
  rw [List.getElem?_append_left h]

theorem lettered_append_right (cs ds : List Char) (i : Nat) :
    Lettered (cs ++ ds) (cs.length + i) ↔ Lettered ds i := by
  unfold Lettered
  rw [getElem?_length_add]

theorem lettered_append_blank {cs : List Char} {blank : Char} (h : isBlank blank = true) (k : Nat) :
    Lettered (cs ++ [blank]) k ↔ Lettered cs k := by
  by_cases hk : k < cs.length
  · exact lettered_append_left hk
  · constructor
    · intro hletter
      have hlt := hletter.lt
      rw [List.length_append, List.length_singleton] at hlt
      have heq : k = cs.length + 0 := by omega
      rw [heq, lettered_append_right] at hletter
      obtain ⟨c, hc, hblank⟩ := hletter
      cases hc
      rw [h] at hblank
      cases hblank
    · intro hletter
      exact absurd hletter.lt hk

/-- A text without blanks is one run. -/
theorem runs_lt {size : Nat} (h : 0 < size) : Runs (· < size) [(0, size)] := by
  constructor
  · exact List.pairwise_singleton _ _
  · intro first stop
    rw [List.mem_singleton, Prod.mk.injEq]
    constructor
    · rintro ⟨rfl, rfl⟩
      refine ⟨h, ?_, ?_, ?_⟩
      · intro k _ hk
        exact hk
      · intro k hk
        omega
      · exact Nat.lt_irrefl _
    · rintro ⟨hlt, hwithin, hstarts, hstops⟩
      have hstop := hwithin (stop - 1) (by omega) (by omega)
      refine ⟨?_, by omega⟩
      apply Classical.byContradiction
      intro hne
      apply hstarts (first - 1) (by omega)
      omega

theorem runs_nothing {shown : Nat → Prop} (h : ∀ k, ¬ shown k) : Runs shown [] := by
  refine ⟨.nil, ?_⟩
  intro first stop
  constructor
  · intro hmem
    cases hmem
  · rintro ⟨hlt, hwithin, -, -⟩
    exact absurd (hwithin first (Nat.le_refl _) hlt) (h first)

/-- Words stand in the runs of characters that are no blanks. -/
theorem words_reads (cs : List Char) : Reads cs (Lettered cs) (words cs) := by
  generalize hlength : cs.length = length
  induction length using Nat.strongRecOn generalizing cs with
  | ind length ih =>
    cases hfind : cs.find? isBlank with
    | none =>
      have hletters : ∀ c ∈ cs, isBlank c = false := by
        intro c hc
        exact Bool.eq_false_iff.mpr (List.find?_eq_none.mp hfind c hc)
      have hshown : Lettered cs = (· < cs.length) :=
        funext fun i => propext (lettered_iff_lt hletters i)
      by_cases hempty : cs = []
      · subst hempty
        refine ⟨[], runs_nothing ?_, rfl⟩
        intro k hk
        exact absurd hk.lt (Nat.not_lt_zero k)
      · rw [hshown]
        refine ⟨_, runs_lt (List.length_pos_iff.mpr hempty), ?_⟩
        have hword : words (String.ofList cs).toList = [String.ofList cs] :=
          words_eq_singleton (by simpa using hempty) (by simpa using hletters)
        rw [String.toList_ofList] at hword
        simp [hword, slice]
    | some blank =>
      obtain ⟨hblank, before, rest, rfl, hletters⟩ := List.find?_eq_some_iff_append.mp hfind
      rw [List.length_append, List.length_cons] at hlength
      have hreads : Reads (before ++ [blank] ++ rest) (Lettered (before ++ [blank] ++ rest))
          (words before ++ words rest) := by
        apply (ih before.length (by omega) before rfl).append (ih rest.length (by omega) rest rfl)
          (by simp) fun k => Lettered.lt
        · intro k hk
          rw [lettered_append_left hk]
          exact lettered_append_blank hblank k
        · exact lettered_append_right _ rest
      rw [List.append_assoc, List.singleton_append] at hreads
      rw [words_append_cons hblank]
      exact hreads

/-! ## Terms -/

theorem ne_commentMark {c : Char} (h : isMark c = false) : c ≠ commentMark := by
  rintro rfl
  cases h

/-- Where nothing is commented out, characters are left unless they are blanks. -/
theorem shown_iff_lettered {cs : List Char} {k : Nat}
    (hmark : ∀ c, cs[k]? = some c → isMark c = false) (hcomment : ¬ Commented cs k) :
    Shown cs k ↔ Lettered cs k := by
  constructor
  · rintro ⟨c, hc, -, hblank, -⟩
    exact ⟨c, hc, hblank⟩
  · rintro ⟨c, hc, hblank⟩
    exact ⟨c, hc, ne_commentMark (hmark c hc), hblank, hcomment⟩

theorem code_reads {code : List Char} (h : ∀ c ∈ code, isMark c = false) :
    Reads code (Shown code) (terms code) := by
  have hshown : Shown code = Lettered code := by
    funext k
    apply propext
    apply shown_iff_lettered
    · intro c hc
      exact h c (List.mem_of_getElem? hc)
    · exact not_commented_of_marks (marks_eq_nil h) k
  rw [hshown, terms_code h]
  exact words_reads code

/-- Of code that a comment follows, what is left is what the code shows. -/
theorem shown_low {code gap rest : List Char} (hcode : ∀ c ∈ code, isMark c = false)
    (hbefore : ∀ k, k < code.length → ¬ Commented (code ++ gap ++ rest) k)
    (hgap : ∀ k, k < gap.length → gap[k]? = some commentMark ∨
      Commented (code ++ gap ++ rest) (code.length + k)) {k : Nat} (hk : k < (code ++ gap).length) :
    Shown (code ++ gap ++ rest) k ↔ Lettered code k := by
  by_cases hlt : k < code.length
  · have hget : (code ++ gap ++ rest)[k]? = code[k]? := by
      rw [List.append_assoc, List.getElem?_append_left hlt]
    rw [shown_iff_lettered _ (hbefore k hlt)]
    · rw [List.append_assoc, lettered_append_left hlt]
    · intro c hc
      rw [hget] at hc
      exact hcode c (List.mem_of_getElem? hc)
  · constructor
    · rintro ⟨c, hc, hmark, -, hcomment⟩
      rw [List.length_append] at hk
      obtain ⟨i, rfl⟩ := Nat.exists_eq_add_of_le (Nat.not_lt.mp hlt)
      rw [List.append_assoc, getElem?_length_add, List.getElem?_append_left (by omega)] at hc
      rcases hgap i (by omega) with hi | hi
      · rw [hi] at hc
        cases hc
        exact absurd rfl hmark
      · exact absurd hi hcomment
    · intro hletter
      exact absurd hletter.lt hlt

/-- What a comment that is not closed leaves starts with a line break. -/
theorem lineBreak_of_dropWhile {comment : List Char} {c : Char}
    (h : (comment.dropWhile fun c => !isLineBreak c)[0]? = some c) : c ∈ lineBreaks := by
  have hhead := List.head?_dropWhile_not (fun c => !isLineBreak c) comment
  rw [List.head?_eq_getElem?, h] at hhead
  rw [← isLineBreak_iff]
  simpa using hhead

theorem not_lineBreak_of_takeWhile {comment : List Char} {c : Char}
    (h : c ∈ comment.takeWhile fun c => !isLineBreak c) : c ∉ lineBreaks := by
  have hnot := List.mem_takeWhile_imp h
  rw [← isLineBreak_iff]
  simpa using hnot

theorem trailing_reads {code comment : List Char} (hcode : ∀ c ∈ code, isMark c = false)
    (hcomment : ∀ c ∈ comment, isMark c = false) :
    Reads (code ++ commentMark :: comment) (Shown (code ++ commentMark :: comment))
      (terms (code ++ commentMark :: comment)) := by
  have hmarks := marks_trailing hcode hcomment
  rw [terms_trailing hcode hcomment]
  generalize hhidden : comment.takeWhile (fun c => !isLineBreak c) = hidden
  generalize hleft : comment.dropWhile (fun c => !isLineBreak c) = seen
  have hsplit : comment = hidden ++ seen := by
    rw [← hhidden, ← hleft, List.takeWhile_append_dropWhile]
  have hall : code ++ commentMark :: comment = code ++ commentMark :: hidden ++ seen := by
    rw [hsplit]
    simp
  have hunbroken : ∀ c ∈ commentMark :: hidden, c ∉ lineBreaks := by
    intro c hc
    rcases List.mem_cons.mp hc with rfl | hmem
    · decide
    · rw [← hhidden] at hmem
      exact not_lineBreak_of_takeWhile hmem
  rw [hall] at hmarks ⊢
  apply (words_reads code).append (words_reads seen) (by simp) fun k => Lettered.lt
  · intro k hk
    apply shown_low hcode _ _ hk
    · intro l hl hcommented
      have := ((commented_of_marks hmarks l).mp hcommented).1
      omega
    · intro l hl
      cases l with
      | zero => exact Or.inl rfl
      | succ l =>
        refine Or.inr ((commented_of_marks hmarks _).mpr ⟨by omega, ?_⟩)
        intro p c hle hle' hc
        obtain ⟨q, rfl⟩ := Nat.exists_eq_add_of_le hle
        rw [List.append_assoc, getElem?_length_add, List.getElem?_append_left (by omega)] at hc
        exact hunbroken c (List.mem_of_getElem? hc)
  · intro i
    constructor
    · rintro ⟨c, hc, -, hblank, -⟩
      rw [getElem?_length_add] at hc
      exact ⟨c, hc, hblank⟩
    · intro hletter
      have hlt := hletter.lt
      rw [shown_iff_lettered, lettered_append_right]
      · exact hletter
      · intro c hc
        rw [getElem?_length_add] at hc
        apply hcomment c
        rw [hsplit]
        exact List.mem_append_right _ (List.mem_of_getElem? hc)
      · have hfirst : seen[0]? = some seen[0] := List.getElem?_eq_getElem (by omega)
        have hbreak : seen[0] ∈ lineBreaks := by
          apply lineBreak_of_dropWhile
          rw [hleft]
          exact hfirst
        rw [← getElem?_length_add (code ++ commentMark :: hidden)] at hfirst
        refine not_commented_of_lineBreak hmarks hfirst hbreak ?_ (by omega)
        rw [List.length_append]
        omega

theorem paired_reads {code comment rest : List Char} (hcode : ∀ c ∈ code, isMark c = false)
    (hcomment : ∀ c ∈ comment, isMark c = false) (hrest : Reads rest (Shown rest) (terms rest)) :
    Reads (code ++ commentMark :: (comment ++ commentMark :: rest))
      (Shown (code ++ commentMark :: (comment ++ commentMark :: rest)))
      (terms (code ++ commentMark :: (comment ++ commentMark :: rest))) := by
  have hmarks := marks_paired hcode hcomment
  rw [terms_paired hcode hcomment]
  generalize hgap : commentMark :: (comment ++ [commentMark]) = gap at hmarks
  have hall : code ++ commentMark :: (comment ++ commentMark :: rest) = code ++ gap ++ rest := by
    rw [← hgap]
    simp
  have hlength : gap.length = comment.length + 2 := by
    rw [← hgap, List.length_cons, List.length_append, List.length_singleton]
  rw [hall]
  apply (words_reads code).append hrest (by simp [← hgap]) fun k => Lettered.lt
  · intro k hk
    apply shown_low hcode _ _ hk
    · intro l hl hcommented
      rcases (commented_append hmarks l).mp hcommented with ⟨hlt, -⟩ | ⟨i, hi, -⟩
      · omega
      · rw [List.length_append] at hi
        omega
    · intro l hl
      by_cases hfirst : l = 0
      · subst hfirst
        rw [← hgap]
        exact Or.inl rfl
      · by_cases hlast : l = comment.length + 1
        · subst hlast
          rw [← hgap, List.getElem?_cons_succ, List.getElem?_concat_length]
          exact Or.inl rfl
        · exact Or.inr ((commented_append hmarks _).mpr (Or.inl ⟨by omega, by omega⟩))
  · intro i
    unfold Shown
    rw [getElem?_length_add, commented_behind hmarks]
    rw [List.length_append]
    omega

/-- Terms stand in the runs of characters that are left. -/
theorem terms_reads (cs : List Char) : Reads cs (Shown cs) (terms cs) := by
  induction cs using terms_induction with
  | code code hcode => exact code_reads hcode
  | trailing code comment hcode hcomment => exact trailing_reads hcode hcomment
  | paired code comment rest hcode hcomment ih => exact paired_reads hcode hcomment ih

/-- **The terms of a text by their positions.** Number the comment marks of the text from left to
right. A character is commented out if it stands between the marks of a pair, or behind a last mark
without a partner with no line break on the way. The terms are, in order, the runs of characters
that are no comment marks, no blanks and not commented out, each as long as it can be. So a term is
not empty, it holds neither comment marks nor blanks, and it does not reach across a comment. -/
theorem tokenize_runs (text : String) :
    ∃ spans : List (Nat × Nat),
      Runs (Shown text.toList) spans ∧ tokenize text = spans.map (slice text.toList) ∧
      (∀ term ∈ tokenize text, term.toList ≠ [] ∧
        ∀ c ∈ term.toList, c ≠ '#' ∧ isBlank c = false) ∧
      ∀ span ∈ spans, ∀ k, text.toList[k]? = some '#' ∨ Commented text.toList k →
        k < span.1 ∨ span.2 ≤ k := by
  obtain ⟨spans, hruns, hterms⟩ := terms_reads text.toList
  refine ⟨spans, hruns, hterms, ?_, ?_⟩
  · intro term hterm
    obtain ⟨hne, hblank, hmark⟩ := isTerm_of_mem_tokenize hterm
    exact ⟨hne, fun c hc => ⟨ne_commentMark (hmark c hc), hblank c hc⟩⟩
  · intro span hspan k hk
    apply Classical.byContradiction
    intro hin
    have hrun := (hruns.mem_iff span.1 span.2).mp hspan
    obtain ⟨c, hc, hmark, -, hcomment⟩ := hrun.within k (by omega) (by omega)
    rcases hk with hmark' | hcomment'
    · rw [hc] at hmark'
      cases hmark'
      exact absurd rfl hmark
    · exact absurd hcomment' hcomment

example : marks "PUSH#x#1 #y\nDUP".toList = [4, 6, 9] := by decide

example : tokenize "PUSH#x#1 #y\nDUP" = ["PUSH", "1", "DUP"] := by decide

end StackRover.Program
