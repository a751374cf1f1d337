import Mathlib.Data.Nat.Digits.Defs
import StackRover.Proofs.StepLimit

/-!
# Where faults come from

The machine makes sure that the stack is as deep as an operation declares, and the operation then
takes values without looking again. This module says once how a built-in operation can fail on such
a stack, with what it raises and the memory that it leaves; what can end a run follows from that. In
a world that raises nothing, all that is not a declared fault comes from the limit on digits, and
only from two places.

* `Builtin.Fails`, `Builtin.perform_fails`: how a built-in operation fails.
* `Machine.Rejects`, `Machine.effectOf_rejects`: how a term fails.
* `Machine.reaches_rolls`: dice are rolled for proper ranges only.
* `Builtin.performWith_eq`: nothing is ever divided by zero.
* `Machine.run_faults`: what can end a run.
-/

namespace StackRover

variable {σ : Type}

/-! ## Numbers that can be written -/

namespace Text

/-- The value of a digit string, by the places of its digits. -/
theorem digitsValue_eq_ofDigits (digits : List Nat) :
    digitsValue digits = Nat.ofDigits 10 digits.reverse := by
  rw [Nat.ofDigits_eq_foldr, List.foldr_reverse, digitsValue]
  congr 1
  funext value digit
  exact Nat.add_comm _ _

theorem digitsValue_lt {digits : List Nat} (h : ∀ digit ∈ digits, digit < 10) :
    digitsValue digits < 10 ^ digits.length := by
  rw [digitsValue_eq_ofDigits, ← List.length_reverse]
  refine Nat.ofDigits_lt_base_pow_length (by decide) fun digit hdigit => ?_
  exact h digit (List.mem_reverse.mp hdigit)

/-- A literal that is read can also be written. -/
theorem isWritable_of_readLiteral {term : String} {value : Int}
    (h : readLiteral term = .value value) : isWritable value = true := by
  unfold readLiteral at h
  cases hsplit : splitSign term.toList with
  | mk negative digits =>
    simp only [hsplit] at h
    by_cases hliteral : isLiteral term = true
    · rw [if_pos hliteral] at h
      have hdigits : ∀ digit ∈ digits.map fun c => c.toNat - 0x30, digit < 10 := by
        intro digit hdigit
        obtain ⟨c, hc, rfl⟩ := List.mem_map.mp hdigit
        rw [isLiteral, hsplit, Bool.and_eq_true, List.all_eq_true] at hliteral
        have hc' := hliteral.2 c hc
        simp only [Char.isDigit, Bool.and_eq_true, decide_eq_true_eq] at hc'
        have hle : c.toNat ≤ 0x39 := hc'.2
        omega
      have hlt := digitsValue_lt hdigits
      unfold Numeral.ofDigits at h
      split at h
      · cases h
      · rename_i hlength
        have hpow : ∀ k l : Nat, k ≤ l → 10 ^ k ≤ Nat.pow 10 l :=
          fun k l hle => Nat.pow_le_pow_right (by decide) hle
        cases h
        unfold isWritable firstTooLong
        refine decide_eq_true (Nat.lt_of_lt_of_le ?_ (hpow _ _ (Nat.not_lt.mp hlength)))
        split
        · rw [Int.natAbs_neg]
          exact hlt
        · exact hlt
    · rw [if_neg hliteral] at h
      cases h

theorem tooLong_of_readLiteral {term : String} {digits : Nat}
    (h : readLiteral term = .tooLong digits) :
    isLiteral term = true ∧ digits = (splitSign term.toList).2.length ∧ digitLimit < digits := by
  unfold readLiteral at h
  by_cases hliteral : isLiteral term = true
  · simp only [hliteral, if_true] at h
    unfold Numeral.ofDigits at h
    split at h
    · rename_i hlong
      cases h
      rw [List.length_map] at hlong ⊢
      exact ⟨hliteral, rfl, hlong⟩
    · cases h
  · simp [hliteral] at h

end Text

/-! ## How a built-in operation fails -/

namespace Builtin

/-- How a built-in operation fails that finds enough values on the stack: what it raises, and the
memory that it leaves. -/
inductive Fails [World σ] : Builtin → Memory σ → Raised → Memory σ → Prop
  | pushNothing {m : Memory σ} (h : m.pending = []) :
      Fails .push m (.fault (.emptyStream "PUSH")) m
  | pushOperand {m : Memory σ} {operand : String} {rest : List String} {raised : Raised}
      (h : m.pending = operand :: rest) (hdigit : digit operand = .error raised) :
      Fails .push m raised { m with pending := rest }
  | divide {m : Memory σ} {builtin : Builtin} {a : Int} {stack : List Int}
      (hdivides : builtin = .div ∨ builtin = .mod) (h : m.stack = 0 :: a :: stack) :
      Fails builtin m (.fault (.divideByZero builtin.name)) m
  | roll {m : Memory σ} {minimum maximum : Int} {stack : List Int}
      (h : m.stack = maximum :: minimum :: stack) (hrange : maximum ≤ minimum) :
      Fails .rand m (Raised.ofFault (.invalidRange minimum maximum)) { m with stack := stack }
  | branch {m : Memory σ} (h : Block.Arms.split m.pending = .error .unterminatedBlock) :
      Fails .branch m (.fault .unterminatedBlock) m
  | defineNothing {m : Memory σ} (h : m.pending = []) :
      Fails .define m (.fault (.emptyStream "DEF")) m
  | defineBlock {m : Memory σ} {name : String} {rest : List String} (h : m.pending = name :: rest)
      (hblock : Block.closing rest = .error .unterminatedBlock) :
      Fails .define m (.fault .unterminatedBlock) { m with pending := rest }
  | go {m m' : Memory σ} {direction : Direction} {raised : Raised}
      (h : Task.ask (World.move direction) m = .error raised m') : Fails (.go direction) m raised m'
  | move {m m' : Memory σ} {code : Int} {stack : List Int} {direction : Direction} {raised : Raised}
      (h : m.stack = code :: stack)
      (hask : Task.ask (World.move direction) { m with stack := stack } = .error raised m') :
      Fails .move m raised m'
  | look {m m' : Memory σ} {code : Int} {stack : List Int} {direction : Direction} {raised : Raised}
      (h : m.stack = code :: stack)
      (hinspect : inspect direction { m with stack := stack } = .error raised m') :
      Fails .look m raised m'

/-- A built-in operation that finds enough values on the stack fails in one of these ways only. -/
theorem perform_fails [World σ] {builtin : Builtin} {m m' : Memory σ} {raised : Raised}
    (hdepth : builtin.minDepth ≤ m.stack.length) (h : builtin.perform m = .error raised m') :
    builtin.Fails m raised m' := by
  have hdivide : ∀ f, (builtin = .div ∨ builtin = .mod) →
      divide builtin.name f m = .error raised m' → 2 ≤ m.stack.length →
      builtin.Fails m raised m' := by
    intro f hbuiltin hresult htwo
    obtain ⟨b, a, stack, hstack⟩ := exists_two htwo
    rw [divide_cons _ _ hstack] at hresult
    by_cases hb : b = 0
    · rw [if_pos hb] at hresult
      subst hb
      cases hresult
      exact .divide hbuiltin hstack
    · rw [if_neg hb] at hresult
      cases hresult
  cases builtin with
  | push =>
    rw [perform] at h
    cases hpending : m.pending with
    | nil =>
      rw [pushLiteral_nil hpending] at h
      cases h
      exact .pushNothing hpending
    | cons operand rest =>
      rw [pushLiteral_cons hpending] at h
      cases hdigit : digit operand with
      | ok value =>
        rw [hdigit] at h
        cases h
      | error raised' =>
        rw [hdigit] at h
        cases h
        exact .pushOperand hpending hdigit
  | pop | dup =>
    obtain ⟨a, stack, hstack⟩ := List.exists_cons_of_length_pos hdepth
    simp [perform, Task.rearrange, hstack] at h
  | swap | add | sub | mul =>
    obtain ⟨b, a, stack, hstack⟩ := exists_two hdepth
    simp [perform, combine, Task.rearrange, hstack] at h
  | rot3 =>
    obtain ⟨c, b, a, stack, hstack⟩ := exists_three hdepth
    simp [perform, Task.rearrange, hstack] at h
  | div => exact hdivide Int.fdiv (Or.inl rfl) h hdepth
  | mod => exact hdivide Int.tmod (Or.inr rfl) h hdepth
  | rand =>
    obtain ⟨maximum, minimum, stack, hstack⟩ := exists_two hdepth
    rw [perform, roll_cons hstack] at h
    by_cases hrange : maximum ≤ minimum
    · rw [if_pos hrange] at h
      obtain ⟨rfl, rfl⟩ := EStateM.Result.error.inj h
      exact .roll hstack hrange
    · rw [if_neg hrange] at h
      cases h
  | branch =>
    obtain ⟨condition, stack, hstack⟩ := List.exists_cons_of_length_pos hdepth
    rw [perform] at h
    cases hsplit : Block.Arms.split m.pending with
    | ok arms =>
      rw [choose_cons hsplit hstack] at h
      cases h
    | error fault =>
      have hfault := Block.Arms.split_error hsplit
      subst hfault
      rw [choose_error hsplit] at h
      cases h
      exact .branch hsplit
  | define =>
    rw [perform] at h
    cases hpending : m.pending with
    | nil =>
      rw [bind_nil hpending] at h
      cases h
      exact .defineNothing hpending
    | cons name rest =>
      cases hclose : Block.closing rest with
      | ok close =>
        rw [bind_cons hpending hclose] at h
        cases h
      | error fault =>
        have hfault := Block.closing_error hclose
        subst hfault
        rw [bind_error hpending hclose] at h
        cases h
        exact .defineBlock hpending hclose
  | go direction => exact .go h
  | move =>
    obtain ⟨code, stack, hstack⟩ := List.exists_cons_of_length_pos hdepth
    rw [perform, moveByCode_cons hstack] at h
    split at h
    · exact .move hstack h
    · cases h
  | look =>
    obtain ⟨code, stack, hstack⟩ := List.exists_cons_of_length_pos hdepth
    rw [perform, lookByCode_cons hstack] at h
    split at h
    · cases h
    · cases h
    · exact .look hstack h

end Builtin

/-! ## How a term fails -/

namespace Machine

/-- How the term `name` before the terms `rest` fails: it stands for nothing, it needs more values
than there are, or it stands for a built-in operation that fails. -/
inductive Rejects [World σ] (m : Machine σ) (name : String) (rest : List String) :
    Raised → Memory σ → Prop
  | unknown (h : m.meaning? name = none) :
      Rejects m name rest (.fault (.unknownInstruction name)) m.looked
  | shallow {meaning : Meaning} (h : m.meaning? name = some meaning)
      (hdepth : m.memory.stack.length < meaning.minDepth) :
      Rejects m name rest
        (.fault (.stackUnderflow name meaning.minDepth m.memory.stack.length)) m.looked
  | builtin {builtin : Builtin} {raised : Raised} {memory : Memory σ}
      (h : m.meaning? name = some (.builtin builtin))
      (hdepth : builtin.minDepth ≤ m.memory.stack.length)
      (hfails : builtin.Fails (m.taken name rest) raised memory) : Rejects m name rest raised memory

theorem effectOf_rejects [World σ] {m : Machine σ} {name : String} {rest : List String}
    {raised : Raised} {memory : Memory σ} (h : m.effectOf name rest = .error raised memory) :
    m.Rejects name rest raised memory := by
  unfold effectOf at h
  cases hmeaning : m.meaning? name with
  | none =>
    rw [hmeaning] at h
    cases h
    exact .unknown hmeaning
  | some meaning =>
    simp only [hmeaning] at h
    by_cases hdepth : meaning.minDepth ≤ m.memory.stack.length
    · rw [if_pos hdepth] at h
      cases meaning with
      | body terms => cases h
      | builtin builtin =>
        simp only [Meaning.task] at h
        cases hperform : builtin.perform (m.taken name rest) with
        | ok _ after =>
          rw [hperform] at h
          cases h
        | error raised' after =>
          rw [hperform] at h
          cases h
          exact .builtin hmeaning hdepth (Builtin.perform_fails hdepth hperform)
    · rw [if_neg hdepth, ofFault_underflow name (Nat.not_le.mp hdepth) (minDepth_le meaning)] at h
      cases h
      exact .shallow hmeaning (Nat.not_le.mp hdepth)

/-! ## Divisions and rolls -/

end Machine

namespace Builtin

/-- What a built-in operation does if numbers are divided by the given functions. -/
def performWith [World σ] (quotient remainder : Int → Int → Int) : Builtin → Task σ Unit
  | .div => divide "DIV" quotient
  | .mod => divide "MOD" remainder
  | builtin => builtin.perform

theorem divide_congr {f g : Int → Int → Int} (h : ∀ a b, b ≠ 0 → f a b = g a b) (name : String)
    (m : Memory σ) : divide name f m = divide name g m := by
  have hcombine : m.stack.head? ≠ some 0 → combine f m = combine g m := by
    intro hhead
    unfold combine Task.rearrange
    match hstack : m.stack with
    | [] => rfl
    | [b] => rfl
    | b :: a :: stack =>
      have hb : b ≠ 0 := by
        rintro rfl
        rw [hstack] at hhead
        exact hhead rfl
      simp only [h a b hb]
  unfold divide
  rw [bind_apply_ok (get_apply m), bind_apply_ok (get_apply m)]
  by_cases hhead : m.stack.head? = some 0
  · rw [if_pos hhead, if_pos hhead]
    rfl
  · rw [if_neg hhead, if_neg hhead]
    exact hcombine hhead

/-- What a division by zero gives does not matter: none is ever carried out. -/
theorem performWith_eq [World σ] {quotient remainder : Int → Int → Int}
    (h : ∀ a b, b ≠ 0 → quotient a b = a.fdiv b ∧ remainder a b = a.tmod b) (builtin : Builtin)
    (m : Memory σ) : builtin.performWith quotient remainder m = builtin.perform m := by
  cases builtin with
  | div => exact divide_congr (fun a b hb => (h a b hb).1) _ m
  | mod => exact divide_congr (fun a b hb => (h a b hb).2) _ m
  | _ => rfl

end Builtin

namespace Machine

/-- Dice are rolled for proper ranges only. -/
theorem reaches_rolls [World σ] {m m' : Machine σ} (hm : m.Unhosted) (h : Reaches m m') :
    ∃ ranges, m'.memory.dice.rolls = ranges ++ m.memory.dice.rolls ∧
      ∀ range ∈ ranges, range.1 < range.2 := by
  let P : Memory σ → Prop := fun memory => ∃ ranges,
    memory.dice.rolls = ranges ++ m.memory.dice.rolls ∧ ∀ range ∈ ranges, range.1 < range.2
  have hP : Memory.Durable P := by
    refine ⟨fun _ h => h, fun _ h => h, ?_, fun _ h => h⟩
    rintro memory minimum maximum hlt ⟨ranges, hrolls, hproper⟩
    refine ⟨(minimum, maximum) :: ranges, congrArg ((minimum, maximum) :: ·) hrolls, ?_⟩
    rw [List.forall_mem_cons]
    exact ⟨hlt, hproper⟩
  have hask : ∀ {α : Type} (request : σ → Reply σ α),
      Respects P (fun _ => True) (Task.ask request) := by
    intro α request
    refine ⟨fun memory hmemory => ?_, fun _ _ _ _ => trivial⟩
    simp only [Task.ask]
    split <;> exact hmemory
  have hactive : ∀ builtin : Builtin, m.operations.contains builtin.name = true →
      Respects P (fun _ => True) (builtin.perform : Task σ Unit) := fun builtin _ =>
    Builtin.perform_respects hP (fun _ _ => trivial) (fun _ _ _ h => h) (fun _ _ => hask _)
      (fun _ => hask _) fun _ _ => hask _
  refine reaches_keeps hP hm hactive ⟨fun _ => hask _, fun _ => hask _⟩ ?_ h
  exact ⟨[], rfl, fun range hrange => absurd hrange List.not_mem_nil⟩

end Machine

/-! ## What can end a run -/

/-- The faults that a program is told of: all but failures around it, and cells that it cannot tell
apart. -/
def Fault.IsDeclared : Fault → Prop
  | .unknownInstruction _ | .stackUnderflow .. | .outOfRange _ | .divideByZero _ | .invalidRange ..
  | .unterminatedBlock | .programTooLong _ | .emptyStream _ => True
  | .unknownObject .. | .hostFailure .. | .other _ => False

theorem Builtin.digit_origin {operand : String} {raised : Raised}
    (h : digit operand = .error raised) :
    (∃ fault : Fault, raised = .fault fault ∧ fault.IsDeclared) ∨
      ∃ digits, raised = .failure (.tooManyDigits (some digits)) ∧ Text.isLiteral operand = true ∧
        digits = (Text.splitSign operand.toList).2.length ∧ Text.digitLimit < digits := by
  unfold digit at h
  cases hread : Text.readLiteral operand with
  | malformed =>
    rw [hread] at h
    cases h
    exact Or.inl ⟨_, rfl, trivial⟩
  | tooLong digits =>
    rw [hread] at h
    cases h
    exact Or.inr ⟨digits, rfl, Text.tooLong_of_readLiteral hread⟩
  | value value =>
    have hwritable : (Fault.outOfRange value).isWritable = true := by
      simp [Fault.isWritable, Fault.numbers, Text.isWritable_of_readLiteral hread]
    simp only [hread] at h
    split at h
    · cases h
    · rw [Raised.ofFault_of_isWritable hwritable] at h
      cases h
      exact Or.inl ⟨_, rfl, trivial⟩

namespace Machine

/-- The term fails for the limit on digits: it is a `PUSH` before a literal of too many digits, or a
`RAND` for a range with nothing in it and a bound of too many digits. -/
inductive Overlong (m : Machine σ) (name : String) (rest : List String) : Option Nat → Prop
  | literal {operand : String} {more : List String} {digits : Nat}
      (h : m.meaning? name = some (.builtin .push)) (hrest : rest = operand :: more)
      (hliteral : Text.isLiteral operand = true)
      (hdigits : digits = (Text.splitSign operand.toList).2.length)
      (hlong : Text.digitLimit < digits) : Overlong m name rest (some digits)
  | bounds {minimum maximum : Int} {stack : List Int}
      (h : m.meaning? name = some (.builtin .rand))
      (hstack : m.memory.stack = maximum :: minimum :: stack) (hrange : maximum ≤ minimum)
      (hlong : Text.isWritable minimum = false ∨ Text.isWritable maximum = false) :
      Overlong m name rest none

variable {m : Machine Void}

/-- In a world that raises nothing a term raises declared faults, or it fails for the limit on
digits. -/
theorem Rejects.origin {name : String} {rest : List String} {raised : Raised}
    {memory : Memory Void} (h : m.Rejects name rest raised memory) :
    (∃ fault : Fault, raised = .fault fault ∧ fault.IsDeclared) ∨
      ∃ digits, raised = .failure (.tooManyDigits digits) ∧ m.Overlong name rest digits := by
  cases h with
  | unknown => exact Or.inl ⟨_, rfl, trivial⟩
  | shallow => exact Or.inl ⟨_, rfl, trivial⟩
  | builtin hmeaning _ hfails =>
    cases hfails with
    | pushNothing | divide | branch | defineNothing | defineBlock => exact Or.inl ⟨_, rfl, trivial⟩
    | pushOperand hrest hdigit =>
      rcases Builtin.digit_origin hdigit with hfault | ⟨digits, hraised, hliteral, hcount, hlong⟩
      · exact Or.inl hfault
      · exact Or.inr ⟨_, hraised, .literal hmeaning hrest hliteral hcount hlong⟩
    | @roll _ minimum maximum stack hstack hrange =>
      cases hwritable : (Fault.invalidRange minimum maximum).isWritable with
      | true =>
        rw [Raised.ofFault_of_isWritable hwritable]
        exact Or.inl ⟨_, rfl, trivial⟩
      | false =>
        have hraised : Raised.ofFault (.invalidRange minimum maximum) =
            .failure (.tooManyDigits none) := by
          rw [Raised.ofFault, hwritable]
          rfl
        refine Or.inr ⟨none, hraised, .bounds hmeaning hstack hrange ?_⟩
        rw [Fault.isWritable, Fault.numbers, List.all_cons, List.all_cons, List.all_nil,
          Bool.and_true, Bool.and_eq_false_iff] at hwritable
        exact hwritable
    | go hask => cases hask
    | move _ hask => cases hask
    | look _ hinspect => cases hinspect

theorem Walk.reaches [World σ] {m m' : Machine σ} {n : Nat} (h : Walk n m m') : Reaches m m' := by
  induction h with
  | refl m => exact .refl
  | cons hstep _ _ ih => exact .head (by rw [hstep]; rfl) ih

theorem outcome_error {m last : Machine σ} {raised : Raised}
    (h : outcome m = .error raised last) :
    last = m ∧ ∃ fault, m.error = some fault ∧ raised = .fault fault := by
  rw [outcome_eq] at h
  cases herror : m.error with
  | none =>
    simp only [herror] at h
    cases h
  | some fault =>
    simp only [herror] at h
    cases h
    exact ⟨rfl, fault, rfl, rfl⟩

/-- A run that fails walks to a machine whose step fails. -/
theorem exists_walk_of_fails [World σ] (hq : QuietHooks σ) (hworld : RaisesOnly σ Raised.IsOrdinary)
    {m last : Machine σ} (hm : m.Unhosted) {terms : List String} {stack : List Int}
    {raised : Raised} (h : run (m.load terms stack) = .error raised last) :
    ∃ n stop progress fault, Walk n (m.load terms stack) stop ∧ step stop = .ok progress last ∧
      last.error = some fault ∧ raised = .fault fault := by
  have hunhosted : (m.load terms stack).Unhosted := (load_sameSetup m terms stack).unhosted hm
  have hroom : (m.load terms stack).maxSteps.toNat <
      (m.load terms stack).steps + (m.maxSteps.toNat + 1) := by
    show m.maxSteps.toNat < 0 + (m.maxSteps.toNat + 1)
    omega
  obtain ⟨n, stop, progress, last', hwalk, hstep, hgoes, -⟩ :=
    exists_endsAfter hq hworld hunhosted rfl (Nat.zero_le _) hroom
  have hwithin : n = 0 ∨ ((0 + n : Nat) : Int) ≤ m.maxSteps := hwalk.steps_le hq hunhosted
  have hends : EndsAfter n (m.load terms stack) last' := ⟨stop, progress, hwalk, hstep, hgoes⟩
  rw [hends.run_eq (show n ≤ m.maxSteps.toNat by omega)] at h
  obtain ⟨rfl, fault, hfault, hraised⟩ := outcome_error h
  exact ⟨n, stop, progress, fault, hwalk, hstep, hfault, hraised⟩

/-- How a step fails that executes a term. -/
theorem step_origin (hm : m.Unhosted) (hlimit : Text.isWritable m.maxSteps = true)
    (hlive : m.phase.isFinal = false) (herror : m.error = none) {progress : Progress}
    {last : Machine Void} {fault : Fault} (hstep : step m = .ok progress last)
    (hfault : last.error = some fault) :
    progress = .failed ∧
      (fault.IsDeclared ∨ ∃ digits name rest, fault = .hostFailure (.tooManyDigits digits) true ∧
        m.memory.pending = name :: rest ∧ m.Overlong name rest digits) := by
  cases hpending : m.memory.pending with
  | nil =>
    rw [step_end hlive hpending] at hstep
    cases hstep
    rw [herror] at hfault
    cases hfault
  | cons name rest =>
    rw [step_quiet quietHooks_void hm hlive hpending] at hstep
    cases heffect : m.effectOf name rest with
    | error raised memory =>
      rw [heffect] at hstep
      obtain ⟨hfailed, settled, hending, hsettled⟩ := settle_ok hstep
      rw [hsettled] at hfault
      cases hfault
      refine ⟨hfailed, ?_⟩
      rcases (effectOf_rejects heffect).origin with
        ⟨declared, rfl, hdeclared⟩ | ⟨digits, rfl, hlong⟩
      · cases hending
        exact Or.inl hdeclared
      · cases hending
        exact Or.inr ⟨digits, name, rest, rfl, rfl, hlong⟩
    | ok category memory =>
      simp only [heffect] at hstep
      split at hstep
      · obtain ⟨hfailed, settled, hending, hsettled⟩ := settle_ok hstep
        rw [hsettled] at hfault
        cases hfault
        have hwritable := limitFault_of_isWritable hlimit
        rw [limitFault, hending] at hwritable
        cases hwritable
        exact ⟨hfailed, Or.inl trivial⟩
      · cases hstep
        rw [herror] at hfault
        cases hfault

/-- No term takes a value from an empty stack. -/
theorem dispatch_ne_emptyStack (hm : m.Unhosted) {again : Run Void Progress} {name : String}
    {rest : List String} {raised : Raised} {after : Machine Void}
    (h : dispatch again name rest m = .error raised after) : raised ≠ .failure .emptyStack := by
  rw [dispatch_unhosted hm] at h
  cases heffect : m.effectOf name rest with
  | error raised' memory =>
    rw [heffect] at h
    cases h
    rcases (effectOf_rejects heffect).origin with ⟨fault, rfl, -⟩ | ⟨digits, rfl, -⟩ <;> simp
  | ok category memory =>
    simp only [heffect, conclude_quiet quietHooks_void] at h
    split at h
    · cases h
    · rename_i hconclude
      cases h
      split at hconclude
      · obtain ⟨hraised, -⟩ := EStateM.Result.error.inj hconclude
        rw [← hraised, Raised.ofFault]
        split <;> simp
      · cases hconclude

/-- **Built-in operations fail only in declared ways.** In a world that raises nothing, with any
operations activated and any definitions, run any terms on any stack. No term that is executed takes
a value from an empty stack, no block is closed beyond the terms that there are, dice are rolled for
proper ranges only, and nothing is divided by zero: an operation does the same whatever a division
by zero would give. And a run that fails does so with a declared fault, or for the limit on digits:
at a `PUSH` before a literal of too many digits, or at a `RAND` that has to report a bound of too
many digits. -/
theorem run_faults (hm : m.Unhosted) (hlimit : Text.isWritable m.maxSteps = true)
    (terms : List String) (stack : List Int) :
    (∀ m', Reaches (m.load terms stack) m' →
      (∀ again name rest raised after, dispatch again name rest m' = .error raised after →
        raised ≠ .failure .emptyStack) ∧
      ∃ ranges, m'.memory.dice.rolls = ranges ++ m.memory.dice.rolls ∧
        ∀ range ∈ ranges, range.1 < range.2) ∧
    (∀ block : List String,
      (∀ close, Block.closing block = .ok close → close < block.length) ∧
      ∀ arms, Block.Arms.split block = .ok arms → arms.close < block.length) ∧
    (∀ (builtin : Builtin) (memory : Memory Void) (quotient remainder : Int → Int → Int),
      (∀ a b, b ≠ 0 → quotient a b = a.fdiv b ∧ remainder a b = a.tmod b) →
      builtin.performWith quotient remainder memory = builtin.perform memory) ∧
    ∀ raised last, run (m.load terms stack) = .error raised last →
      ∃ fault, raised = .fault fault ∧
        (fault.IsDeclared ∨ ∃ digits stop name rest,
          fault = .hostFailure (.tooManyDigits digits) true ∧ Reaches (m.load terms stack) stop ∧
          step stop = .ok .failed last ∧ stop.memory.pending = name :: rest ∧
          stop.Overlong name rest digits) := by
  have hunhosted : (m.load terms stack).Unhosted := (load_sameSetup m terms stack).unhosted hm
  refine ⟨fun m' hreaches => ⟨fun again name rest raised after h => ?_, ?_⟩, fun block => ⟨?_, ?_⟩,
    fun builtin memory quotient remainder h => Builtin.performWith_eq h builtin memory,
    fun raised last hrun => ?_⟩
  · exact dispatch_ne_emptyStack ((hreaches.sameSetup hunhosted).unhosted hunhosted) h
  · exact reaches_rolls (m := m.load terms stack) hunhosted hreaches
  · exact fun close hclose => (Block.closing_append hclose []).2
  · exact fun arms hsplit => (Block.Arms.split_append hsplit []).2
  · obtain ⟨n, stop, progress, fault, hwalk, hstep, hfault, rfl⟩ :=
      exists_walk_of_fails quietHooks_void (raisesOnly_void Raised.IsOrdinary) hm hrun
    have hsame := hwalk.sameSetup hunhosted
    obtain ⟨hlive, herror⟩ := hwalk.live quietHooks_void hunhosted rfl
    have hlimit' : Text.isWritable stop.maxSteps = true := by
      rw [hsame.maxSteps]
      exact hlimit
    obtain ⟨rfl, horigin⟩ :=
      step_origin (hsame.unhosted hunhosted) hlimit' hlive herror hstep hfault
    refine ⟨fault, rfl, ?_⟩
    rcases horigin with hdeclared | ⟨digits, name, rest, hhost, hpending, hlong⟩
    · exact Or.inl hdeclared
    · exact Or.inr ⟨digits, stop, name, rest, hhost, hwalk.reaches, hstep, hpending, hlong⟩

/-- Nine is squared thirteen times, which gives a number of more than seven thousand digits; it is
then the lower bound of a range whose upper bound is zero. -/
theorem run_faults_bound :
    Text.isWritable 99 = true ∧
    ∃ last stop name rest,
      run ((plain ({} : Void) 99).load
        ((List.replicate 13 ["DUP", "MUL"]).flatten ++ ["PUSH", "0", "RAND"]) [9]) =
          .error (.fault (.hostFailure (.tooManyDigits none) true)) last ∧
      step stop = .ok .failed last ∧ stop.memory.pending = name :: rest ∧
      stop.Overlong name rest none := by
  have hraised : raisedOf (run ((plain ({} : Void) 99).load
      ((List.replicate 13 ["DUP", "MUL"]).flatten ++ ["PUSH", "0", "RAND"]) [9])) =
        some (.fault (.hostFailure (.tooManyDigits none) true)) := by
    decide +kernel
  have hwritable : Text.isWritable 99 = true := by decide +kernel
  have hrun := eq_error_of_raisedOf hraised
  obtain ⟨fault, hfault, horigin⟩ :=
    (run_faults (m := plain {} 99) (catalogue_unhosted rfl) hwritable _ [9]).2.2.2 _ _ hrun
  cases hfault
  rcases horigin with hdeclared | ⟨digits, stop, name, rest, hhost, -, hstep, hpending, hlong⟩
  · exact absurd hdeclared id
  · cases hhost
    exact ⟨hwritable, _, stop, name, rest, hrun, hstep, hpending, hlong⟩

end Machine

end StackRover
