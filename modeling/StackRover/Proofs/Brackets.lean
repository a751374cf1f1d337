import StackRover.Proofs.Balance

/-!
# Well-bracketed terms

The grammar of terms in which every `IF` and every `DEF` has its own `END`, an `ELSE` stands only
between the two arms of an `IF`, and a `DEF` is followed by a name. Such terms are undivided, so all
that is known of the scanners of a block holds for them.

* `Bracketed.undivided`: no `ELSE` stands outside the blocks.
* `closing_of_bracketed`, `Arms.split_of_bracketed`, `Arms.split_of_bracketed_else`: on
  well-bracketed terms the scanners find the end that the grammar says, and the arms.
* `closing_append`, `Arms.split_append`: a block that is closed is found alike whatever terms
  follow.
-/

namespace StackRover.Block

/-- Terms in which blocks are opened and closed in pairs. -/
inductive Bracketed : List String → Prop
  | nil : Bracketed []
  | term {term : String} {rest : List String} (hterm : term ∉ delimiters)
      (hrest : Bracketed rest) : Bracketed (term :: rest)
  | branch {arm rest : List String} (harm : Bracketed arm) (hrest : Bracketed rest) :
      Bracketed ("IF" :: (arm ++ "END" :: rest))
  | branchElse {onTrue onFalse rest : List String} (htrue : Bracketed onTrue)
      (hfalse : Bracketed onFalse) (hrest : Bracketed rest) :
      Bracketed ("IF" :: (onTrue ++ "ELSE" :: (onFalse ++ "END" :: rest)))
  | define {name : String} {body rest : List String} (hname : name ∉ delimiters)
      (hbody : Bracketed body) (hrest : Bracketed rest) :
      Bracketed ("DEF" :: name :: (body ++ "END" :: rest))

namespace Bracketed

theorem append {terms more : List String} (h : Bracketed terms) (hmore : Bracketed more) :
    Bracketed (terms ++ more) := by
  induction h with
  | nil => exact hmore
  | term hterm _ ih => exact .term hterm ih
  | branch harm _ _ ih =>
    simp only [List.cons_append, List.append_assoc]
    exact .branch harm ih
  | branchElse htrue hfalse _ _ _ ih =>
    simp only [List.cons_append, List.append_assoc]
    exact .branchElse htrue hfalse ih
  | define hname hbody _ _ ih =>
    simp only [List.cons_append, List.append_assoc]
    exact .define hname hbody ih

/-- What follows a term that is no delimiter. -/
theorem tail {term : String} {rest : List String} (h : Bracketed (term :: rest))
    (hterm : term ∉ delimiters) : Bracketed rest := by
  cases h with
  | term _ hrest => exact hrest
  | branch | branchElse | define => simp [delimiters] at hterm

/-- No term of the grammar starts with a divider or a closer. -/
theorem head_ne {term : String} {rest : List String} (h : Bracketed (term :: rest)) :
    term ≠ "ELSE" ∧ term ≠ "END" := by
  cases h with
  | term hterm _ =>
    simp only [delimiters, List.mem_cons, not_or] at hterm
    exact ⟨hterm.2.2.1, hterm.2.2.2.1⟩
  | branch | branchElse | define => decide

/-- What follows an `IF`: one arm or two, then the terms after the block. -/
theorem of_branch {terms : List String} (h : Bracketed ("IF" :: terms)) :
    (∃ arm rest, terms = arm ++ "END" :: rest ∧ Bracketed arm ∧ Bracketed rest) ∨
      ∃ onTrue onFalse rest, terms = onTrue ++ "ELSE" :: (onFalse ++ "END" :: rest) ∧
        Bracketed onTrue ∧ Bracketed onFalse ∧ Bracketed rest := by
  generalize hall : "IF" :: terms = all at h
  cases h with
  | nil => cases hall
  | term hterm _ =>
    rw [← (List.cons.inj hall).1] at hterm
    simp [delimiters] at hterm
  | branch harm hrest => exact Or.inl ⟨_, _, (List.cons.inj hall).2, harm, hrest⟩
  | branchElse htrue hfalse hrest =>
    exact Or.inr ⟨_, _, _, (List.cons.inj hall).2, htrue, hfalse, hrest⟩
  | define => exact absurd (List.cons.inj hall).1 (by decide)

/-- What follows a `DEF`: a name, a body, then the terms after the block. -/
theorem of_define {terms : List String} (h : Bracketed ("DEF" :: terms)) :
    ∃ name body rest, terms = name :: (body ++ "END" :: rest) ∧ name ∉ delimiters ∧
      Bracketed body ∧ Bracketed rest := by
  generalize hall : "DEF" :: terms = all at h
  cases h with
  | nil => cases hall
  | term hterm _ =>
    rw [← (List.cons.inj hall).1] at hterm
    simp [delimiters] at hterm
  | branch | branchElse => exact absurd (List.cons.inj hall).1 (by decide)
  | define hname hbody hrest => exact ⟨_, _, _, (List.cons.inj hall).2, hname, hbody, hrest⟩

end Bracketed

/-! ## Scanning well-bracketed terms -/

/-- No `ELSE` of well-bracketed terms stands outside their blocks. -/
theorem Bracketed.undivided {terms : List String} (h : Bracketed terms) : Undivided terms := by
  induction h with
  | nil => exact .nil
  | term hterm _ ih => exact .term hterm ih
  | branch _ _ iharm ih => exact .block (by decide) iharm.balanced ih
  | @branchElse onTrue onFalse rest _ _ _ ihtrue ihfalse ih =>
    have harms : Balanced (onTrue ++ "ELSE" :: onFalse) :=
      ihtrue.balanced.append (.term (by decide) ihfalse.balanced)
    have hblock : Undivided ("IF" :: ((onTrue ++ "ELSE" :: onFalse) ++ "END" :: rest)) :=
      .block (by decide) harms ih
    rw [List.append_assoc, List.cons_append] at hblock
    exact hblock
  | @define name body rest hname _ _ ihbody ih =>
    have hblock : Balanced (name :: body) :=
      .term (plain_of_not_mem_delimiters hname) ihbody.balanced
    exact .block (by decide) hblock ih

/-- The block of well-bracketed terms ends right after them. -/
theorem closing_of_bracketed {body : List String} (h : Bracketed body) (rest : List String) :
    closing (body ++ "END" :: rest) = .ok body.length :=
  closing_of_balanced h.undivided.balanced rest

/-- An `IF` without an `ELSE` has one arm. -/
theorem Arms.split_of_bracketed {arm : List String} (h : Bracketed arm) (rest : List String) :
    Arms.split (arm ++ "END" :: rest) = .ok ⟨arm, [], arm.length⟩ :=
  Arms.split_of_undivided h.undivided rest

/-- An `IF` with an `ELSE` has two arms. -/
theorem Arms.split_of_bracketed_else {onTrue onFalse : List String} (htrue : Bracketed onTrue)
    (hfalse : Bracketed onFalse) (rest : List String) :
    Arms.split (onTrue ++ "ELSE" :: (onFalse ++ "END" :: rest)) =
      .ok ⟨onTrue, onFalse, onTrue.length + 1 + onFalse.length⟩ :=
  Arms.split_of_divided htrue.undivided.balanced hfalse.undivided rest

theorem drop_block (body rest : List String) :
    (body ++ "END" :: rest).drop (body.length + 1) = rest := by
  simp

theorem drop_block_else (onTrue onFalse rest : List String) :
    (onTrue ++ "ELSE" :: (onFalse ++ "END" :: rest)).drop
      (onTrue.length + 1 + onFalse.length + 1) = rest := by
  have hlength : onTrue.length + 1 + onFalse.length + 1 =
      onTrue.length + (onFalse.length + 1 + 1) := by omega
  rw [hlength, List.drop_length_add_append, List.drop_succ_cons, drop_block]

/-! ## Terms that follow a closed block -/

/-- A closed block ends where it does whatever terms follow. -/
theorem closing_append {terms : List String} {close : Nat} (h : closing terms = .ok close)
    (more : List String) : closing (terms ++ more) = .ok close ∧ close < terms.length := by
  obtain ⟨body, rest, rfl, hbody, rfl⟩ := closing_eq_ok_iff.mp h
  rw [List.append_assoc, List.cons_append, closing_of_balanced hbody]
  refine ⟨rfl, ?_⟩
  rw [List.length_append, List.length_cons]
  omega

/-- A closed block has the same arms whatever terms follow. -/
theorem Arms.split_append {terms : List String} {arms : Arms} (h : Arms.split terms = .ok arms)
    (more : List String) :
    Arms.split (terms ++ more) = .ok arms ∧ arms.close < terms.length := by
  obtain ⟨body, rest, rfl, hclose, hsplit⟩ := Arms.exists_block_of_split h
  rw [List.append_assoc, List.cons_append, hsplit, hclose, List.length_append, List.length_cons]
  exact ⟨rfl, by omega⟩

end StackRover.Block
