import Mathlib.Data.List.TakeWhile
import Mathlib.Data.Nat.Digits.Lemmas
import StackRover.Proofs.Executions
import StackRover.Proofs.ProgramText

/-!
# Literals and what `PUSH` makes of them

A literal is written as a sign, or none, before at least one decimal digit; its value is that of the
digits by their places. The terms that are read as literals are exactly these. Settings are read by
another rule, which also takes digits of other scripts, underscores and blanks around the numeral;
it reads every literal, with the same result.

* `Literal`: the literals, with their texts and their values.
* `isLiteral_iff_exists`: the terms that are literals.
* `readLiteral_text`, `readSetting_text`: how a literal is read by the two rules.
* `Builtin.digit_text`, `Builtin.digit_of_not_literal`: the operand of a `PUSH`.
* `Machine.push_outcome`: the outcome of a `PUSH`.
-/

namespace StackRover.Text

/-! ## Written literals -/

/-- The sign of a literal, if it has one. -/
inductive Sign where
  | unsigned
  | plus
  | minus
  deriving Repr, DecidableEq

namespace Sign

/-- How the sign is written. -/
def chars : Sign → List Char
  | unsigned => []
  | plus => ['+']
  | minus => ['-']

/-- The number with the sign. -/
def apply : Sign → Nat → Int
  | minus, n => -n
  | _, n => n

end Sign

/-- How decimal digits are written. -/
def figures (digits : List (Fin 10)) : List Char :=
  digits.map fun digit : Fin 10 => Nat.digitChar digit.val

/-- A sign, or none, and at least one decimal digit, the most significant one first. -/
structure Literal where
  sign : Sign
  digits : List (Fin 10)
  digits_ne_nil : digits ≠ []

namespace Literal

/-- The term that the literal is. -/
def text (l : Literal) : String := String.ofList (l.sign.chars ++ figures l.digits)

/-- The number that the literal denotes. -/
def value (l : Literal) : Int := l.sign.apply (Nat.ofDigits 10 (l.digits.map Fin.val).reverse)

end Literal

/-! ## Digits -/

theorem isDigit_digitChar : ∀ digit : Fin 10, (Nat.digitChar digit.val).isDigit = true := by decide

theorem toNat_digitChar :
    ∀ digit : Fin 10, (Nat.digitChar digit.val).toNat - 0x30 = digit := by decide

theorem digitValue?_digitChar :
    ∀ digit : Fin 10, digitValue? (Nat.digitChar digit.val) = some digit.val := by decide

theorem toNat_of_isDigit {c : Char} (h : c.isDigit = true) : 0x30 ≤ c.toNat ∧ c.toNat ≤ 0x39 := by
  simp only [Char.isDigit, Bool.and_eq_true, decide_eq_true_eq] at h
  exact ⟨h.1, h.2⟩

theorem isBlank_of_isDigit {c : Char} (h : c.isDigit = true) : isBlank c = false := by
  obtain ⟨hlow, hhigh⟩ := toNat_of_isDigit h
  simp only [isBlank, Bool.or_eq_false_iff, Bool.and_eq_false_iff, decide_eq_false_iff_not,
    beq_eq_false_iff_ne]
  omega

theorem isDigit_of_mem_figures {digits : List (Fin 10)} {c : Char} (h : c ∈ figures digits) :
    c.isDigit = true := by
  obtain ⟨digit, -, rfl⟩ := List.mem_map.mp h
  exact isDigit_digitChar digit

/-- Every string of decimal digits is the figures of some digits. -/
theorem exists_figures {cs : List Char} (h : ∀ c ∈ cs, c.isDigit = true) :
    ∃ digits, figures digits = cs := by
  induction cs with
  | nil => exact ⟨[], rfl⟩
  | cons c cs ih =>
    rw [List.forall_mem_cons] at h
    obtain ⟨digits, rfl⟩ := ih h.2
    obtain ⟨hlow, hhigh⟩ := toNat_of_isDigit h.1
    have hchar : Nat.digitChar (c.toNat - 0x30) = c := by
      apply Char.toNat_inj.mp
      rw [Nat.toNat_digitChar_of_lt_ten (by omega)]
      omega
    exact ⟨⟨c.toNat - 0x30, by omega⟩ :: digits, by simp [figures, hchar]⟩

/-! ## Reading a literal -/

theorem splitSign_of_isDigit {c : Char} (h : c.isDigit = true) (cs : List Char) :
    splitSign (c :: cs) = (false, c :: cs) := by
  unfold splitSign
  split
  · rename_i heq
    cases heq
    cases h
  · rename_i heq
    cases heq
    cases h
  · rfl

/-- What is split off is a sign, or nothing. -/
theorem exists_sign (cs : List Char) : ∃ sign : Sign, cs = sign.chars ++ (splitSign cs).2 := by
  unfold splitSign
  split
  · exact ⟨.plus, rfl⟩
  · exact ⟨.minus, rfl⟩
  · exact ⟨.unsigned, rfl⟩

namespace Literal

theorem toList_text (l : Literal) : l.text.toList = l.sign.chars ++ figures l.digits :=
  String.toList_ofList

theorem mem_text {l : Literal} {c : Char} (h : c ∈ l.text.toList) :
    c = '+' ∨ c = '-' ∨ c.isDigit = true := by
  rw [toList_text, List.mem_append] at h
  rcases h with hsign | hdigit
  · cases hcase : l.sign <;> simp_all [Sign.chars]
  · exact Or.inr (Or.inr (isDigit_of_mem_figures hdigit))

theorem splitSign_text (l : Literal) :
    splitSign l.text.toList = (decide (l.sign = .minus), figures l.digits) := by
  rw [toList_text]
  obtain ⟨sign, digits, hne⟩ := l
  cases sign with
  | plus | minus => rfl
  | unsigned =>
    obtain ⟨digit, more, rfl⟩ := List.exists_cons_of_ne_nil hne
    exact splitSign_of_isDigit (isDigit_digitChar digit) (figures more)

theorem isLiteral_text (l : Literal) : isLiteral l.text = true := by
  have hdigits : (figures l.digits).all Char.isDigit = true :=
    List.all_eq_true.mpr fun c hc => isDigit_of_mem_figures hc
  have hne : figures l.digits ≠ [] := by simp [figures, l.digits_ne_nil]
  simp only [isLiteral, splitSign_text, hdigits, Bool.and_true, Bool.not_eq_true',
    List.isEmpty_eq_false_iff]
  exact hne

end Literal

/-- The terms that are literals are the texts of literals. -/
theorem isLiteral_iff_exists {term : String} :
    isLiteral term = true ↔ ∃ l : Literal, l.text = term := by
  constructor
  · intro h
    simp only [isLiteral, Bool.and_eq_true, Bool.not_eq_true', List.isEmpty_eq_false_iff,
      List.all_eq_true] at h
    obtain ⟨hne, hall⟩ := h
    obtain ⟨digits, hdigits⟩ := exists_figures hall
    obtain ⟨sign, hsign⟩ := exists_sign term.toList
    have hdigits_ne : digits ≠ [] := by
      rintro rfl
      exact hne hdigits.symm
    refine ⟨⟨sign, digits, hdigits_ne⟩, ?_⟩
    rw [Literal.text, hdigits, ← hsign]
    exact String.ofList_toList
  · rintro ⟨l, rfl⟩
    exact l.isLiteral_text

namespace Literal

theorem value_eq (l : Literal) :
    l.value = if l.sign = .minus then -(digitsValue (l.digits.map Fin.val) : Int)
      else digitsValue (l.digits.map Fin.val) := by
  rw [value, digitsValue_eq_ofDigits]
  cases l.sign <;> rfl

theorem readLiteral_eq_ofDigits (l : Literal) :
    readLiteral l.text = .ofDigits (decide (l.sign = .minus)) (l.digits.map Fin.val) := by
  have hdigits : (figures l.digits).map (fun c => c.toNat - 0x30) = l.digits.map Fin.val := by
    simp [figures, toNat_digitChar]
  simp only [readLiteral, splitSign_text, isLiteral_text, if_true, hdigits]

/-- Zero has literals of every length. -/
theorem exists_zeros (n : Nat) : ∃ l : Literal, l.digits.length = n + 1 ∧ l.value = 0 := by
  refine ⟨⟨.unsigned, List.replicate (n + 1) 0, by simp⟩, List.length_replicate, ?_⟩
  simp only [value, List.map_replicate, List.reverse_replicate, Fin.val_zero,
    Nat.ofDigits_replicate_zero]
  rfl

/-- A literal is read by its digits, if they are not too many. -/
theorem readLiteral_text (l : Literal) :
    readLiteral l.text =
      if digitLimit < l.digits.length then .tooLong l.digits.length else .value l.value := by
  rw [readLiteral_eq_ofDigits, Numeral.ofDigits, List.length_map, value_eq]
  simp only [decide_eq_true_eq]

end Literal

/-! ## Reading a literal as a setting -/

theorem trim_eq_self {p : Char → Bool} {cs : List Char} (h : ∀ c ∈ cs, p c = false) :
    trim p cs = cs := by
  have hdrop : ∀ ds : List Char, (∀ c ∈ ds, p c = false) → ds.dropWhile p = ds := by
    intro ds hds
    cases ds with
    | nil => rfl
    | cons d ds => simp [hds d List.mem_cons_self]
  rw [trim, hdrop cs h, hdrop cs.reverse fun c hc => h c (List.mem_reverse.mp hc),
    List.reverse_reverse]

theorem mapM_figures (digits : List (Fin 10)) :
    (figures digits).mapM digitValue? = some (digits.map Fin.val) := by
  induction digits with
  | nil => rfl
  | cons digit digits ih =>
    have hcons : figures (digit :: digits) = Nat.digitChar digit.val :: figures digits := rfl
    rw [hcons, List.mapM_cons, digitValue?_digitChar, ih]
    rfl

/-- Digits without underscores are one group. -/
theorem groupedDigits?_figures {digits : List (Fin 10)} (hne : digits ≠ []) :
    groupedDigits? (figures digits) = some (digits.map Fin.val) := by
  have hcut : cut (· == '_') (figures digits) = [figures digits] := by
    refine cut_eq_singleton fun c hc => ?_
    rw [beq_eq_false_iff_ne]
    rintro rfl
    cases isDigit_of_mem_figures hc
  have hempty : (figures digits).isEmpty = false := by simp [figures, hne]
  simp [groupedDigits?, hcut, hempty, mapM_figures]

/-- A literal is read as a setting with the same result. -/
theorem Literal.readSetting_text (l : Literal) : readSetting l.text = readLiteral l.text := by
  have htrim : trim isNumeralBlank l.text.toList = l.text.toList := by
    refine trim_eq_self fun c hc => ?_
    rcases mem_text hc with rfl | rfl | hdigit
    · rfl
    · rfl
    · simp [isNumeralBlank, isBlank_of_isDigit hdigit]
  have hgrouped : ∀ c ∈ figures l.digits, isGroupedDigit c = true := by
    intro c hc
    obtain ⟨digit, -, rfl⟩ := List.mem_map.mp hc
    simp [isGroupedDigit, digitValue?_digitChar]
  have htake : (figures l.digits).takeWhile isGroupedDigit = figures l.digits :=
    List.takeWhile_eq_self_iff.mpr hgrouped
  have hdrop : (figures l.digits).dropWhile isGroupedDigit = [] :=
    List.dropWhile_eq_nil_iff.mpr hgrouped
  rw [readLiteral_eq_ofDigits]
  simp only [readSetting, htrim, splitSign_text, htake, hdrop,
    groupedDigits?_figures l.digits_ne_nil, List.isEmpty_nil, if_true]
  split
  · rename_i heq
    exact heq.symm
  · rfl

end StackRover.Text

namespace StackRover

variable {σ : Type}

/-! ## The operand of a `PUSH` -/

namespace Builtin

theorem digit_text (l : Text.Literal) :
    digit l.text =
      if Text.digitLimit < l.digits.length then
        .error (.failure (.tooManyDigits (some l.digits.length)))
      else if 0 ≤ l.value ∧ l.value ≤ 9 then .ok l.value
      else .error (.fault (.outOfRange l.value)) := by
  have hread := l.readLiteral_text
  by_cases hlong : Text.digitLimit < l.digits.length
  · rw [if_pos hlong] at hread ⊢
    simp only [digit, hread]
  · rw [if_neg hlong] at hread ⊢
    -- A literal that is read can also be written, so the fault is raised as it is.
    have hwritable : (Fault.outOfRange l.value).isWritable = true := by
      simp [Fault.isWritable, Fault.numbers, Text.isWritable_of_readLiteral hread]
    simp only [digit, hread, Raised.ofFault_of_isWritable hwritable]

theorem digit_of_not_literal {operand : String} (h : ∀ l : Text.Literal, l.text ≠ operand) :
    digit operand = .error (.fault (.unknownInstruction operand)) := by
  have hliteral : Text.isLiteral operand ≠ true := fun hliteral => by
    obtain ⟨l, hl⟩ := Text.isLiteral_iff_exists.mp hliteral
    exact h l hl
  have hread : Text.readLiteral operand = .malformed := by
    by_contra hread
    exact hliteral ((Text.isLiteral_iff_readLiteral operand).mpr hread)
  simp only [digit, hread]
  rfl

theorem digit_eq_ok_iff {operand : String} {value : Int} :
    digit operand = .ok value ↔
      ∃ l : Text.Literal, l.text = operand ∧ l.digits.length ≤ Text.digitLimit ∧ l.value = value ∧
        0 ≤ value ∧ value ≤ 9 := by
  constructor
  · intro h
    by_cases hliteral : ∃ l : Text.Literal, l.text = operand
    · obtain ⟨l, rfl⟩ := hliteral
      rw [digit_text] at h
      split at h
      · cases h
      · rename_i hshort
        split at h
        · rename_i hrange
          cases h
          exact ⟨l, rfl, Nat.not_lt.mp hshort, rfl, hrange⟩
        · cases h
    · rw [digit_of_not_literal (not_exists.mp hliteral)] at h
      cases h
  · rintro ⟨l, rfl, hshort, rfl, hrange⟩
    rw [digit_text, if_neg (Nat.not_lt.mpr hshort), if_pos hrange]

end Builtin

namespace Machine

variable [World σ] {m : Machine σ} {operand : String} {rest : List String}

theorem does_push (h : m.Offers .push) (hpending : m.memory.pending = operand :: rest) {value : Int}
    (hdigit : Builtin.digit operand = .ok value) :
    m.Does .push { m.memory with stack := value :: m.memory.stack, pending := rest } := by
  refine does_of_perform h (Nat.zero_le _) fun journal => ⟨journal, ?_⟩
  refine (Builtin.pushLiteral_cons (m := { m.memory with journal := journal }) hpending).trans ?_
  rw [hdigit]

theorem failsAt_push (h : m.Offers .push) (hpending : m.memory.pending = operand :: rest)
    {raised : Raised} {fault : Fault} (hdigit : Builtin.digit operand = .error raised)
    (hends : raised.ending? = some fault) :
    m.FailsAt .push fault { m.memory with pending := rest } := by
  have hperform : ∀ journal, Builtin.push.perform { m.memory with journal := journal } =
      .error raised { m.memory with pending := rest, journal := journal } := by
    intro journal
    refine (Builtin.pushLiteral_cons (m := { m.memory with journal := journal }) hpending).trans ?_
    rw [hdigit]
  exact failsAt_of_perform h (Nat.zero_le _) (fun journal => ⟨journal, hperform journal⟩) hends

theorem failsAt_push_nil (h : m.Offers .push) (hpending : m.memory.pending = []) :
    m.FailsAt .push (.emptyStream "PUSH") m.memory := by
  have hperform : ∀ journal, Builtin.push.perform { m.memory with journal := journal } =
      .error (.fault (.emptyStream "PUSH")) { m.memory with journal := journal } :=
    fun journal => Builtin.pushLiteral_nil (m := { m.memory with journal := journal }) hpending
  exact failsAt_of_perform h (Nat.zero_le _) (fun journal => ⟨journal, hperform journal⟩) rfl

theorem does_push_iff (h : m.Offers .push) (hpending : m.memory.pending = operand :: rest)
    (value : Int) :
    m.Does .push { m.memory with stack := value :: m.memory.stack, pending := rest } ↔
      Builtin.digit operand = .ok value := by
  refine ⟨fun hdoes => ?_, does_push h hpending⟩
  cases hdigit : Builtin.digit operand with
  | ok other =>
    have hstack := (does_push h hpending hdigit).stack_eq.symm.trans hdoes.stack_eq
    rw [(List.cons.inj hstack).1]
  | error raised =>
    obtain ⟨fault, hends⟩ : ∃ fault, raised.ending? = some fault := by
      rcases Builtin.digit_origin hdigit with ⟨fault, rfl, -⟩ | ⟨digits, rfl, -⟩
      · exact ⟨fault, rfl⟩
      · exact ⟨_, rfl⟩
    have hstack := (failsAt_push h hpending hdigit hends).stack_eq.symm.trans hdoes.stack_eq
    exact absurd hstack (List.cons_ne_self _ _).symm

/-- **The operand of a `PUSH` determines its outcome.** Let the next term be a `PUSH` that is the
built-in operation, in any machine and any world. If no term follows it, the step fails for want of
one. Otherwise that term is taken: a literal of at most 4300 digits whose value is a single digit is
pushed, and nothing else is; a literal of so many digits with another value fails with that value; a
literal of more digits fails for the limit on digits, whatever its value; and every term that is no
literal fails as an unknown instruction. A literal is also read as a setting, with the same result,
so that the rule for settings refuses none. -/
theorem push_outcome (h : m.Offers .push) :
    (m.memory.pending = [] → m.FailsAt .push (.emptyStream "PUSH") m.memory) ∧
    ∀ operand rest, m.memory.pending = operand :: rest →
      (∀ value,
        m.Does .push { m.memory with stack := value :: m.memory.stack, pending := rest } ↔
          ∃ l : Text.Literal, l.text = operand ∧ l.digits.length ≤ 4300 ∧ l.value = value ∧
            0 ≤ value ∧ value ≤ 9) ∧
      (∀ l : Text.Literal, l.text = operand → l.digits.length ≤ 4300 →
        ¬ (0 ≤ l.value ∧ l.value ≤ 9) →
        m.FailsAt .push (.outOfRange l.value) { m.memory with pending := rest }) ∧
      (∀ l : Text.Literal, l.text = operand → 4300 < l.digits.length →
        m.FailsAt .push (.hostFailure (.tooManyDigits (some l.digits.length)) true)
          { m.memory with pending := rest }) ∧
      ((∀ l : Text.Literal, l.text ≠ operand) →
        m.FailsAt .push (.unknownInstruction operand) { m.memory with pending := rest }) ∧
      (Text.isLiteral operand = true →
        Text.readSetting operand = Text.readLiteral operand ∧
          Text.readSetting operand ≠ .malformed) := by
  refine ⟨failsAt_push_nil h, fun operand rest hpending => ⟨fun value => ?_, ?_, ?_, ?_, ?_⟩⟩
  · rw [does_push_iff h hpending]
    exact Builtin.digit_eq_ok_iff
  · rintro l rfl hshort hrange
    have hdigit : Builtin.digit l.text = .error (.fault (.outOfRange l.value)) := by
      have hshort' : ¬ Text.digitLimit < l.digits.length := Nat.not_lt.mpr hshort
      rw [Builtin.digit_text, if_neg hshort', if_neg hrange]
    exact failsAt_push h hpending hdigit rfl
  · rintro l rfl hlong
    have hdigit : Builtin.digit l.text =
        .error (.failure (.tooManyDigits (some l.digits.length))) := by
      rw [Builtin.digit_text]
      exact if_pos hlong
    exact failsAt_push h hpending hdigit rfl
  · intro hother
    exact failsAt_push h hpending (Builtin.digit_of_not_literal hother) rfl
  · intro hliteral
    obtain ⟨l, rfl⟩ := Text.isLiteral_iff_exists.mp hliteral
    rw [l.readSetting_text]
    exact ⟨rfl, (Text.isLiteral_iff_readLiteral _).mp hliteral⟩

/-- Seven with a sign and leading zeros is pushed. Zero with 4301 digits is not, nor is the three of
another script, which would do as a setting. -/
theorem push_outcome_numerals :
    (∃ m : Machine Void, m.Offers .push ∧ m.memory.pending = ["+007", "DUP"] ∧
      m.Does .push { m.memory with stack := [7], pending := ["DUP"] }) ∧
    (∃ (m : Machine Void) (l : Text.Literal), l.digits.length = 4301 ∧ l.value = 0 ∧
      m.Offers .push ∧ m.memory.pending = [l.text] ∧
      m.FailsAt .push (.hostFailure (.tooManyDigits (some 4301)) true)
        { m.memory with pending := [] }) ∧
    ∃ m : Machine Void, m.Offers .push ∧ m.memory.pending = ["٣"] ∧
      Text.readSetting "٣" = .value 3 ∧
      m.FailsAt .push (.unknownInstruction "٣") { m.memory with pending := [] } := by
  have hoffers : ∀ terms stack, ((plain ({} : Void) 99).load terms stack).Offers .push :=
    fun terms stack => ⟨rfl, rfl⟩
  refine ⟨?_, ?_, ?_⟩
  · obtain ⟨-, houtcome⟩ := push_outcome (hoffers ["+007", "DUP"] [])
    obtain ⟨hpushed, -⟩ := houtcome "+007" ["DUP"] rfl
    let l : Text.Literal := ⟨.plus, [0, 0, 7], List.cons_ne_nil _ _⟩
    have hl : l.text = "+007" ∧ l.digits.length ≤ 4300 ∧ l.value = 7 ∧ (0 : Int) ≤ 7 ∧
        (7 : Int) ≤ 9 := by
      decide +kernel
    exact ⟨_, hoffers ["+007", "DUP"] [], rfl, (hpushed 7).mpr ⟨l, hl⟩⟩
  · obtain ⟨l, hlength, hvalue⟩ := Text.Literal.exists_zeros 4300
    obtain ⟨-, houtcome⟩ := push_outcome (hoffers [l.text] [])
    obtain ⟨-, -, hlong, -⟩ := houtcome l.text [] rfl
    have hfails := hlong l rfl (by omega)
    rw [hlength] at hfails
    exact ⟨_, l, hlength, hvalue, hoffers [l.text] [], rfl, hfails⟩
  · obtain ⟨-, houtcome⟩ := push_outcome (hoffers ["٣"] [])
    obtain ⟨-, -, -, hunknown, -⟩ := houtcome "٣" [] rfl
    refine ⟨_, hoffers ["٣"] [], rfl, by decide +kernel, hunknown fun l hl => ?_⟩
    have hliteral := l.isLiteral_text
    rw [hl] at hliteral
    exact absurd hliteral (by decide +kernel)

end Machine

end StackRover
