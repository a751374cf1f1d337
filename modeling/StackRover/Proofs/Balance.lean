import StackRover.Block

/-!
# Balanced terms

The two scanners of a block walk over its terms once and count the inner blocks that are open. The
grammars of this module nest instead: in balanced terms every opener has an `END` of its own, and
undivided terms are balanced terms in which no `ELSE` stands outside the inner blocks. The scanners
find exactly what the grammars say.

* `closing_eq_ok_iff`: a block is closed by the `END` that follows balanced terms.
* `closing_iff_balanced`: where the scan for the end of a block succeeds, and where it fails; it
  also goes by recursive descent.
* `Balanced.undivided_or_divided`: balanced terms have a last `ELSE` of their own, or none at all.
* `Arms.split_iff_closing`: the scan for the arms of an `IF` finds the same end, and cuts the block
  at that `ELSE`.
-/

namespace StackRover.Block

/-- The terms that open, divide and close blocks. -/
def delimiters : List String := ["IF", "DEF", "ELSE", "END"]

/-- Terms in which every block that is opened is also closed, and none is closed that was not
opened. An `ELSE` is a term like any other. -/
inductive Balanced : List String → Prop
  | nil : Balanced []
  | term {term : String} {rest : List String} (hterm : term ∉ ["DEF", "IF", "END"])
      (hrest : Balanced rest) : Balanced (term :: rest)
  | block {opener : String} {body rest : List String} (hopener : opener ∈ ["DEF", "IF"])
      (hbody : Balanced body) (hrest : Balanced rest) :
      Balanced (opener :: (body ++ "END" :: rest))

/-- Balanced terms without an `ELSE` outside the inner blocks. -/
inductive Undivided : List String → Prop
  | nil : Undivided []
  | term {term : String} {rest : List String} (hterm : term ∉ delimiters)
      (hrest : Undivided rest) : Undivided (term :: rest)
  | block {opener : String} {body rest : List String} (hopener : opener ∈ ["DEF", "IF"])
      (hbody : Balanced body) (hrest : Undivided rest) :
      Undivided (opener :: (body ++ "END" :: rest))

/-- The block opened just before the terms is closed by the `END` at the given index: the terms
before that are balanced. -/
def ClosesAt (terms : List String) (close : Nat) : Prop :=
  terms[close]? = some "END" ∧ Balanced (terms.take close)

/-! ## The grammars -/

theorem plain_or_opener_or_end (term : String) :
    term ∉ ["DEF", "IF", "END"] ∨ term ∈ ["DEF", "IF"] ∨ term = "END" := by
  by_cases hopener : term ∈ ["DEF", "IF"]
  · exact Or.inr (Or.inl hopener)
  · by_cases hend : term = "END"
    · exact Or.inr (Or.inr hend)
    · simp_all

theorem not_mem_delimiters {term : String} (hterm : term ∉ ["DEF", "IF", "END"])
    (helse : term ≠ "ELSE") : term ∉ delimiters := by
  simp_all [delimiters]

theorem plain_of_not_mem_delimiters {term : String} (h : term ∉ delimiters) :
    term ∉ ["DEF", "IF", "END"] := by
  have hsubset : ["DEF", "IF", "END"] ⊆ delimiters := by decide
  exact fun hmem => h (hsubset hmem)

namespace Balanced

/-- What follows an opener: a block, then more terms. -/
theorem of_opener {opener : String} {terms : List String} (hopener : opener ∈ ["DEF", "IF"])
    (h : Balanced (opener :: terms)) :
    ∃ body rest, terms = body ++ "END" :: rest ∧ Balanced body ∧ Balanced rest := by
  cases h with
  | term hterm _ =>
    have hmem : opener ∈ ["DEF", "IF"] ++ ["END"] := List.mem_append_left _ hopener
    exact absurd hmem hterm
  | block _ hbody hrest => exact ⟨_, _, rfl, hbody, hrest⟩

/-- Balanced terms have a last `ELSE` that stands in none of their blocks, or they have none. -/
theorem undivided_or_divided {terms : List String} (h : Balanced terms) :
    Undivided terms ∨
      ∃ onTrue onFalse, terms = onTrue ++ "ELSE" :: onFalse ∧ Balanced onTrue ∧
        Undivided onFalse := by
  induction h with
  | nil => exact Or.inl .nil
  | @term term rest hterm hrest ih =>
    rcases ih with hundivided | ⟨onTrue, onFalse, rfl, htrue, hfalse⟩
    · by_cases helse : term = "ELSE"
      · subst helse
        exact Or.inr ⟨[], rest, rfl, .nil, hundivided⟩
      · exact Or.inl (.term (not_mem_delimiters hterm helse) hundivided)
    · exact Or.inr ⟨term :: onTrue, onFalse, rfl, .term hterm htrue, hfalse⟩
  | @block opener body rest hopener hbody _ _ ih =>
    rcases ih with hundivided | ⟨onTrue, onFalse, rfl, htrue, hfalse⟩
    · exact Or.inl (.block hopener hbody hundivided)
    · refine Or.inr ⟨opener :: (body ++ "END" :: onTrue), onFalse, ?_, ?_, hfalse⟩
      · simp
      · exact .block hopener hbody htrue

end Balanced

theorem Balanced.append {terms more : List String} (h : Balanced terms) (hmore : Balanced more) :
    Balanced (terms ++ more) := by
  induction h with
  | nil => exact hmore
  | term hterm _ ih => exact .term hterm ih
  | block hopener hbody _ _ ih =>
    rw [List.cons_append, List.append_assoc, List.cons_append]
    exact .block hopener hbody ih

theorem Undivided.balanced {terms : List String} (h : Undivided terms) : Balanced terms := by
  induction h with
  | nil => exact .nil
  | term hterm _ ih => exact .term (plain_of_not_mem_delimiters hterm) ih
  | block hopener hbody _ ih => exact .block hopener hbody ih

/-! ## One term -/

theorem isOpener_iff (term : String) : isOpener term = true ↔ term ∈ ["DEF", "IF"] := by
  simp [isOpener]

theorem closingFrom_plain {term : String} (h : term ∉ ["DEF", "IF", "END"]) (depth pos : Nat)
    (terms : List String) :
    closingFrom depth pos (term :: terms) = closingFrom depth (pos + 1) terms := by
  simp only [List.mem_cons, List.not_mem_nil, or_false, not_or] at h
  obtain ⟨hdef, hif, hend⟩ := h
  simp [closingFrom, isOpener, hdef, hif, hend]

theorem closingFrom_opener {term : String} (h : term ∈ ["DEF", "IF"]) (depth pos : Nat)
    (terms : List String) :
    closingFrom depth pos (term :: terms) = closingFrom (depth + 1) (pos + 1) terms := by
  simp [closingFrom, (isOpener_iff term).mpr h]

theorem closingFrom_end (depth pos : Nat) (terms : List String) :
    closingFrom (depth + 1) pos ("END" :: terms) = closingFrom depth (pos + 1) terms := by
  simp [closingFrom, isOpener]

theorem dividerFrom_plain {term : String} (h : term ∉ delimiters) (depth pos : Nat)
    (divider : Option Nat) (terms : List String) :
    dividerFrom depth pos divider (term :: terms) =
      dividerFrom depth (pos + 1) divider terms := by
  simp only [delimiters, List.mem_cons, List.not_mem_nil, or_false, not_or] at h
  obtain ⟨hif, hdef, helse, hend⟩ := h
  simp [dividerFrom, isOpener, hif, hdef, helse, hend]

theorem dividerFrom_opener {term : String} (h : term ∈ ["DEF", "IF"]) (depth pos : Nat)
    (divider : Option Nat) (terms : List String) :
    dividerFrom depth pos divider (term :: terms) =
      dividerFrom (depth + 1) (pos + 1) divider terms := by
  simp [dividerFrom, (isOpener_iff term).mpr h]

theorem dividerFrom_else (depth pos : Nat) (divider : Option Nat) (terms : List String) :
    dividerFrom depth pos divider ("ELSE" :: terms) =
      dividerFrom depth (pos + 1) (if depth = 0 then some pos else divider) terms := by
  simp [dividerFrom, isOpener]

theorem dividerFrom_end (depth pos : Nat) (divider : Option Nat) (terms : List String) :
    dividerFrom (depth + 1) pos divider ("END" :: terms) =
      dividerFrom depth (pos + 1) divider terms := by
  simp [dividerFrom, isOpener]

/-- The scanner of `IF` closes a block where the scanner of `DEF` does. -/
theorem closingFrom_eq_map (depth pos : Nat) (divider : Option Nat) (terms : List String) :
    closingFrom depth pos terms = (dividerFrom depth pos divider terms).map Prod.fst := by
  induction terms generalizing depth pos divider with
  | nil => rfl
  | cons term terms ih =>
    rcases plain_or_opener_or_end term with hplain | hopener | rfl
    · rw [closingFrom_plain hplain]
      by_cases helse : term = "ELSE"
      · rw [helse, dividerFrom_else]
        exact ih _ _ _
      · rw [dividerFrom_plain (not_mem_delimiters hplain helse)]
        exact ih _ _ _
    · rw [closingFrom_opener hopener, dividerFrom_opener hopener]
      exact ih _ _ _
    · cases depth with
      | zero => rfl
      | succ inner =>
        rw [closingFrom_end, dividerFrom_end]
        exact ih _ _ _

/-! ## Balanced terms are passed over -/

/-- The scanner passes over balanced terms: as many blocks are open after them as before. Only where
no inner block is open can a divider be among them. -/
theorem dividerFrom_balanced {terms : List String} (h : Balanced terms) (depth pos : Nat)
    (divider : Option Nat) :
    ∃ found, (0 < depth → found = divider) ∧ ∀ more,
      dividerFrom depth pos divider (terms ++ more) =
        dividerFrom depth (pos + terms.length) found more := by
  induction h generalizing depth pos divider with
  | nil => exact ⟨divider, fun _ => rfl, fun more => rfl⟩
  | @term term rest hterm _ ih =>
    by_cases helse : term = "ELSE"
    · subst helse
      obtain ⟨found, hfound, hscan⟩ := ih depth (pos + 1) (if depth = 0 then some pos else divider)
      refine ⟨found, fun hdepth => ?_, fun more => ?_⟩
      · rw [hfound hdepth, if_neg (by omega)]
      · rw [List.cons_append, dividerFrom_else, hscan, List.length_cons]
        congr 1
        omega
    · obtain ⟨found, hfound, hscan⟩ := ih depth (pos + 1) divider
      refine ⟨found, hfound, fun more => ?_⟩
      rw [List.cons_append, dividerFrom_plain (not_mem_delimiters hterm helse), hscan,
        List.length_cons]
      congr 1
      omega
  | @block opener body rest hopener _ _ ihbody ih =>
    obtain ⟨inner, hinner, hbody⟩ := ihbody (depth + 1) (pos + 1) divider
    -- Within the inner block the divider stays as it is.
    rw [hinner (by omega)] at hbody
    obtain ⟨found, hfound, hscan⟩ := ih depth (pos + 1 + body.length + 1) divider
    refine ⟨found, hfound, fun more => ?_⟩
    rw [List.cons_append, dividerFrom_opener hopener, List.append_assoc, hbody, List.cons_append,
      dividerFrom_end, hscan]
    simp only [List.length_cons, List.length_append]
    congr 1
    omega

/-- Undivided terms leave the divider as it is. -/
theorem dividerFrom_undivided {terms : List String} (h : Undivided terms) (depth pos : Nat)
    (divider : Option Nat) (more : List String) :
    dividerFrom depth pos divider (terms ++ more) =
      dividerFrom depth (pos + terms.length) divider more := by
  induction h generalizing depth pos more with
  | nil => rfl
  | term hterm _ ih =>
    rw [List.cons_append, dividerFrom_plain hterm, ih, List.length_cons]
    congr 1
    omega
  | @block opener body rest hopener hbody _ ih =>
    obtain ⟨inner, hinner, hscan⟩ := dividerFrom_balanced hbody (depth + 1) (pos + 1) divider
    rw [hinner (by omega)] at hscan
    rw [List.cons_append, dividerFrom_opener hopener, List.append_assoc, hscan, List.cons_append,
      dividerFrom_end, ih]
    simp only [List.length_cons, List.length_append]
    congr 1
    omega

/-! ## Where a block ends -/

/-- The block of balanced terms ends right after them. -/
theorem closing_of_balanced {body : List String} (h : Balanced body) (rest : List String) :
    closing (body ++ "END" :: rest) = .ok body.length := by
  obtain ⟨found, -, hscan⟩ := dividerFrom_balanced h 0 0 none
  rw [closing, closingFrom_eq_map 0 0 none, hscan]
  simp [dividerFrom, isOpener]

/-- The innermost open block is closed after balanced terms. The induction is on the number of
terms, since an opener has to be followed over its own block and then over what comes after it. -/
theorem exists_balanced_of_closingFrom {depth pos close : Nat} {terms : List String}
    (h : closingFrom depth pos terms = some close) :
    ∃ body rest, terms = body ++ "END" :: rest ∧ Balanced body ∧
      closingFrom depth (pos + body.length) ("END" :: rest) = some close := by
  generalize hlength : terms.length = length
  induction length using Nat.strongRecOn generalizing depth pos terms with
  | ind length ih =>
    cases terms with
    | nil => cases h
    | cons term terms =>
      rw [List.length_cons] at hlength
      rcases plain_or_opener_or_end term with hplain | hopener | rfl
      · rw [closingFrom_plain hplain] at h
        obtain ⟨body, rest, rfl, hbody, hclose⟩ := ih terms.length (by omega) h rfl
        refine ⟨term :: body, rest, rfl, .term hplain hbody, ?_⟩
        rw [← hclose, List.length_cons]
        congr 1
        omega
      · rw [closingFrom_opener hopener] at h
        obtain ⟨inner, more, rfl, hinner, hmore⟩ := ih terms.length (by omega) h rfl
        rw [closingFrom_end] at hmore
        rw [List.length_append, List.length_cons] at hlength
        obtain ⟨body, rest, rfl, hbody, hclose⟩ := ih more.length (by omega) hmore rfl
        refine ⟨term :: (inner ++ "END" :: body), rest, ?_, .block hopener hinner hbody, ?_⟩
        · simp
        · rw [← hclose]
          simp only [List.length_cons, List.length_append]
          congr 1
          omega
      · exact ⟨[], terms, rfl, .nil, h⟩

/-- A block is closed by the `END` that follows balanced terms. -/
theorem closing_eq_ok_iff {terms : List String} {close : Nat} :
    closing terms = .ok close ↔
      ∃ body rest, terms = body ++ "END" :: rest ∧ Balanced body ∧ close = body.length := by
  constructor
  · intro h
    unfold closing at h
    split at h
    · rename_i pos hscan
      cases h
      obtain ⟨body, rest, hterms, hbody, hclose⟩ := exists_balanced_of_closingFrom hscan
      refine ⟨body, rest, hterms, hbody, ?_⟩
      simp [closingFrom, isOpener] at hclose
      omega
    · cases h
  · rintro ⟨body, rest, rfl, hbody, rfl⟩
    exact closing_of_balanced hbody rest

/-- A block that is not closed has no `END` after balanced terms. -/
theorem closing_eq_error_iff {terms : List String} :
    closing terms = .error .unterminatedBlock ↔
      ¬ ∃ body rest, terms = body ++ "END" :: rest ∧ Balanced body := by
  constructor
  · rintro h ⟨body, rest, rfl, hbody⟩
    rw [closing_of_balanced hbody] at h
    cases h
  · intro h
    unfold closing
    split
    · rename_i pos hscan
      obtain ⟨body, rest, hterms, hbody, -⟩ := exists_balanced_of_closingFrom hscan
      exact absurd ⟨body, rest, hterms, hbody⟩ h
    · rfl

theorem closesAt_iff {terms : List String} {close : Nat} :
    ClosesAt terms close ↔
      ∃ body rest, terms = body ++ "END" :: rest ∧ Balanced body ∧ close = body.length := by
  constructor
  · rintro ⟨hend, hbody⟩
    obtain ⟨hlt, hget⟩ := List.getElem?_eq_some_iff.mp hend
    refine ⟨terms.take close, terms.drop (close + 1), ?_, hbody, ?_⟩
    · rw [← hget, List.getElem_cons_drop, List.take_append_drop]
    · rw [List.length_take]
      omega
  · rintro ⟨body, rest, rfl, hbody, rfl⟩
    refine ⟨by simp, ?_⟩
    rw [List.take_left]
    exact hbody

/-- A block of balanced terms ends in one place only. -/
theorem Balanced.append_end_inj {body body' rest rest' : List String} (h : Balanced body)
    (h' : Balanced body') (heq : body ++ "END" :: rest = body' ++ "END" :: rest') :
    body = body' ∧ rest = rest' := by
  have hclosing := closing_of_balanced h rest
  rw [heq, closing_of_balanced h' rest'] at hclosing
  obtain ⟨hbody, htail⟩ := List.append_inj heq (Except.ok.inj hclosing).symm
  exact ⟨hbody, (List.cons.inj htail).2⟩

/-- A block that starts with an opener holds the block of that opener. -/
theorem Balanced.cons_opener {opener : String} {terms block rest : List String}
    (hopener : opener ∈ ["DEF", "IF"]) (hblock : Balanced block)
    (heq : opener :: terms = block ++ "END" :: rest) :
    ∃ body more, terms = body ++ "END" :: (more ++ "END" :: rest) ∧ Balanced body ∧
      Balanced more := by
  cases block with
  | nil =>
    rw [(List.cons.inj heq).1] at hopener
    exact absurd hopener (by decide)
  | cons first block =>
    obtain ⟨rfl, rfl⟩ := List.cons.inj heq
    obtain ⟨body, more, rfl, hbody, hmore⟩ := hblock.of_opener hopener
    refine ⟨body, more, ?_, hbody, hmore⟩
    simp

/-- The scan goes by recursive descent: over the block of an opener, then over what follows it. -/
theorem closing_opener {opener : String} (hopener : opener ∈ ["DEF", "IF"]) (terms : List String) :
    closing (opener :: terms) = do
      let inner ← closing terms
      let outer ← closing (terms.drop (inner + 1))
      return 1 + inner + 1 + outer := by
  by_cases hinner : ∃ body rest, terms = body ++ "END" :: rest ∧ Balanced body
  · obtain ⟨body, rest, rfl, hbody⟩ := hinner
    have hdrop : (body ++ "END" :: rest).drop (body.length + 1) = rest := by simp
    rw [closing_of_balanced hbody]
    show _ = (closing ((body ++ "END" :: rest).drop (body.length + 1)) >>= fun outer =>
      return 1 + body.length + 1 + outer)
    rw [hdrop]
    by_cases houter : ∃ more last, rest = more ++ "END" :: last ∧ Balanced more
    · obtain ⟨more, last, rfl, hmore⟩ := houter
      rw [closing_of_balanced hmore]
      apply closing_eq_ok_iff.mpr
      refine ⟨opener :: (body ++ "END" :: more), last, ?_, .block hopener hbody hmore, ?_⟩
      · simp
      · simp only [List.length_cons, List.length_append]
        omega
    · rw [closing_eq_error_iff.mpr houter]
      apply closing_eq_error_iff.mpr
      rintro ⟨block, last, heq, hblock⟩
      obtain ⟨body', more, heq', hbody', hmore⟩ := hblock.cons_opener hopener heq
      obtain ⟨-, rfl⟩ := hbody.append_end_inj hbody' heq'
      exact houter ⟨more, last, rfl, hmore⟩
  · rw [closing_eq_error_iff.mpr hinner]
    apply closing_eq_error_iff.mpr
    rintro ⟨block, last, heq, hblock⟩
    obtain ⟨body, more, hterms, hbody, -⟩ := hblock.cons_opener hopener heq
    exact hinner ⟨body, _, hterms, hbody⟩

/-- **The end of a block.** The scan finds an index exactly if the `END` there follows balanced
terms, and it fails exactly if there is no such index. So a block ends in one place only, and the
scan agrees with recursive descent: the block of an opener is passed over first, then the terms
behind it. -/
theorem closing_iff_balanced (terms : List String) :
    (∀ close, closing terms = .ok close ↔ ClosesAt terms close) ∧
    (closing terms = .error .unterminatedBlock ↔ ¬ ∃ close, ClosesAt terms close) ∧
    (∀ close close', ClosesAt terms close → ClosesAt terms close' → close = close') ∧
    ∀ opener ∈ ["DEF", "IF"], closing (opener :: terms) = do
      let inner ← closing terms
      let outer ← closing (terms.drop (inner + 1))
      return 1 + inner + 1 + outer := by
  have hok : ∀ close, closing terms = .ok close ↔ ClosesAt terms close := by
    intro close
    rw [closing_eq_ok_iff, closesAt_iff]
  refine ⟨hok, ?_, ?_, fun opener hopener => closing_opener hopener terms⟩
  · rw [closing_eq_error_iff]
    apply not_congr
    constructor
    · rintro ⟨body, rest, hterms, hbody⟩
      exact ⟨body.length, closesAt_iff.mpr ⟨body, rest, hterms, hbody, rfl⟩⟩
    · rintro ⟨close, hcloses⟩
      obtain ⟨body, rest, hterms, hbody, -⟩ := closesAt_iff.mp hcloses
      exact ⟨body, rest, hterms, hbody⟩
  · intro close close' hcloses hcloses'
    have hclosing := (hok close).mpr hcloses
    rw [(hok close').mpr hcloses'] at hclosing
    cases hclosing
    rfl

/-- Two blocks stand within each other, and an `END` too many follows. -/
theorem closing_iff_balanced_nested :
    "IF" ∈ ["DEF", "IF"] ∧
    closing ("IF" :: ["DEF", "F", "END", "ELSE", "END", "DUP", "END", "END"]) = (do
      let inner ← closing ["DEF", "F", "END", "ELSE", "END", "DUP", "END", "END"]
      let outer ← closing (["DEF", "F", "END", "ELSE", "END", "DUP", "END", "END"].drop (inner + 1))
      return 1 + inner + 1 + outer) ∧
    closing ("IF" :: ["DEF", "F", "END", "ELSE", "END", "DUP", "END", "END"]) = .ok 7 :=
  ⟨by decide, (closing_iff_balanced _).2.2.2 "IF" (by decide), rfl⟩

/-! ## The arms of an `IF` -/

/-- Undivided terms are the one arm of an `IF`. -/
theorem Arms.split_of_undivided {arm : List String} (h : Undivided arm) (rest : List String) :
    Arms.split (arm ++ "END" :: rest) = .ok ⟨arm, [], arm.length⟩ := by
  simp [Arms.split, dividerFrom_undivided h, dividerFrom, isOpener]

/-- Of several `ELSE` the last one divides the arms. -/
theorem Arms.split_of_divided {onTrue onFalse : List String} (htrue : Balanced onTrue)
    (hfalse : Undivided onFalse) (rest : List String) :
    Arms.split (onTrue ++ "ELSE" :: (onFalse ++ "END" :: rest)) =
      .ok ⟨onTrue, onFalse, onTrue.length + 1 + onFalse.length⟩ := by
  obtain ⟨found, -, hpass⟩ := dividerFrom_balanced htrue 0 0 none
  have hscan : dividerFrom 0 0 none (onTrue ++ "ELSE" :: (onFalse ++ "END" :: rest)) =
      some (onTrue.length + 1 + onFalse.length, some onTrue.length) := by
    rw [hpass, dividerFrom_else, dividerFrom_undivided hfalse]
    simp [dividerFrom, isOpener]
  have hlength : onTrue.length + 1 + onFalse.length = onTrue.length + (onFalse.length + 1) := by
    omega
  simp only [Arms.split, hscan]
  rw [hlength]
  simp [List.take_append, List.take_of_length_le]

theorem Arms.split_eq_error_iff {terms : List String} {fault : Fault} :
    Arms.split terms = .error fault ↔ closing terms = .error fault := by
  unfold Arms.split closing
  rw [closingFrom_eq_map 0 0 none]
  cases dividerFrom 0 0 none terms with
  | none => simp
  | some found =>
    obtain ⟨close, divider⟩ := found
    cases divider <;> simp

/-- The arms of an `IF` do not depend on what follows its `END`. -/
theorem Arms.exists_block_of_split {terms : List String} {arms : Arms}
    (h : Arms.split terms = .ok arms) :
    ∃ body rest, terms = body ++ "END" :: rest ∧ arms.close = body.length ∧
      ∀ rest', Arms.split (body ++ "END" :: rest') = .ok arms := by
  obtain ⟨body, rest, rfl, hbody⟩ : ∃ body rest, terms = body ++ "END" :: rest ∧ Balanced body := by
    apply Classical.byContradiction
    intro hnone
    rw [Arms.split_eq_error_iff.mpr (closing_eq_error_iff.mpr hnone)] at h
    cases h
  rcases hbody.undivided_or_divided with hundivided | ⟨onTrue, onFalse, rfl, htrue, hfalse⟩
  · rw [Arms.split_of_undivided hundivided] at h
    cases h
    exact ⟨body, rest, rfl, rfl, Arms.split_of_undivided hundivided⟩
  · simp only [List.append_assoc, List.cons_append] at h
    rw [Arms.split_of_divided htrue hfalse] at h
    cases h
    refine ⟨onTrue ++ "ELSE" :: onFalse, rest, rfl, ?_, fun rest' => ?_⟩
    · simp only [List.length_append, List.length_cons]
      omega
    · simp only [List.append_assoc, List.cons_append]
      exact Arms.split_of_divided htrue hfalse rest'

/-- **The two arms of an `IF`.** The scan for the arms fails exactly if the scan for the end of the
block does, and else it finds the same end. The arms then are the whole block and nothing, where no
`ELSE` stands outside the inner blocks; or the block is the first arm, an `ELSE` and the second arm,
where both arms are balanced and that `ELSE` is the last one outside the inner blocks. -/
theorem Arms.split_iff_closing (terms : List String) :
    (∀ fault, Arms.split terms = .error fault ↔ closing terms = .error fault) ∧
    ∀ close, closing terms = .ok close →
      ∃ onTrue onFalse, Arms.split terms = .ok ⟨onTrue, onFalse, close⟩ ∧
        ((Undivided (terms.take close) ∧ onTrue = terms.take close ∧ onFalse = []) ∨
          (terms.take close = onTrue ++ ["ELSE"] ++ onFalse ∧ Balanced onTrue ∧ Balanced onFalse ∧
            Undivided onFalse)) := by
  refine ⟨fun fault => Arms.split_eq_error_iff, fun close hclose => ?_⟩
  obtain ⟨body, rest, rfl, hbody, rfl⟩ := closing_eq_ok_iff.mp hclose
  rw [List.take_left]
  rcases hbody.undivided_or_divided with hundivided | ⟨onTrue, onFalse, rfl, htrue, hfalse⟩
  · exact ⟨body, [], Arms.split_of_undivided hundivided rest, Or.inl ⟨hundivided, rfl, rfl⟩⟩
  · refine ⟨onTrue, onFalse, ?_, Or.inr ⟨?_, htrue, hfalse.balanced, hfalse⟩⟩
    · have hsplit := Arms.split_of_divided htrue hfalse rest
      simp only [List.append_assoc, List.cons_append, List.length_append, List.length_cons]
        at hsplit ⊢
      rw [hsplit]
      congr 2
      omega
    · simp

/-- An `IF` with two `ELSE` of its own, and one within an inner block. -/
theorem Arms.split_iff_closing_last :
    closing ["A", "ELSE", "IF", "ELSE", "END", "ELSE", "B", "END", "C"] = .ok 7 ∧
    Arms.split ["A", "ELSE", "IF", "ELSE", "END", "ELSE", "B", "END", "C"] =
      .ok ⟨["A", "ELSE", "IF", "ELSE", "END"], ["B"], 7⟩ ∧
    Balanced ["A", "ELSE", "IF", "ELSE", "END"] ∧ Undivided ["B"] := by
  have hclose : closing ["A", "ELSE", "IF", "ELSE", "END", "ELSE", "B", "END", "C"] = .ok 7 := rfl
  have hsplit : Arms.split ["A", "ELSE", "IF", "ELSE", "END", "ELSE", "B", "END", "C"] =
      .ok ⟨["A", "ELSE", "IF", "ELSE", "END"], ["B"], 7⟩ := rfl
  obtain ⟨onTrue, onFalse, harms, hcut⟩ := (Arms.split_iff_closing _).2 7 hclose
  rw [hsplit] at harms
  cases harms
  rcases hcut with ⟨-, -, hempty⟩ | ⟨-, htrue, -, hfalse⟩
  · cases hempty
  · exact ⟨hclose, hsplit, htrue, hfalse⟩

end StackRover.Block
