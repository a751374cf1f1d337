import StackRover.Proofs.Brackets
import StackRover.Proofs.Confinement
import StackRover.Proofs.Scripts
import StackRover.Proofs.StepLimit

/-!
# Definitions that call themselves

A definition may use its own name. Two such definitions are followed through all their rounds,
whatever lies below their argument on the stack and whatever terms follow them. The countdown calls
itself last, so its rounds leave no terms pending; the tally goes on after it has called itself, so
every round leaves two. A countdown from below zero never returns, and its run fails for every
limit: with the fault `programTooLong`, which tells the limit, unless the limit has too many digits
to be told (`countdown_unwritable_limit`).

The words that the definitions use must be the built-in ones. Other host operations do not matter,
nor does the world, as long as it takes no notice of notifications.

* `Leads`: so many steps lead to the given pending terms and stack, or the run fails for its limit.
* `Leads.trans`, `exhausts_of_rounds`: one part of a run after the other, and rounds without end.
* `leads_test`: the test that begins every round.
* `leads_countdown`, `leads_tally`: all rounds, by induction on the argument.
* `recursion_computes`: what the two definitions compute.
-/

namespace StackRover

variable {σ : Type}

/-- The terms that make the definition. -/
def Definition.terms (definition : Definition) : List String :=
  "DEF" :: definition.name :: (definition.body ++ ["END"])

/-- Counts the top value down and drops it at zero. -/
def Definition.countdown : Definition :=
  ⟨"LOOP", ["DUP", "IF", "PUSH", "1", "SUB", "LOOP", "ELSE", "POP", "END"]⟩

/-- Counts the top value down and pushes a one for every round, after it has returned from it. -/
def Definition.tally : Definition :=
  ⟨"R", ["DUP", "IF", "PUSH", "1", "SUB", "R", "PUSH", "1", "ELSE", "END"]⟩

example : Program.tokenize "DEF LOOP DUP IF PUSH 1 SUB LOOP ELSE POP END END" =
    Definition.countdown.terms := by
  decide +kernel

example : Program.tokenize "DEF R DUP IF PUSH 1 SUB R PUSH 1 ELSE END END" =
    Definition.tally.terms := by
  decide +kernel

/-- The definition looks at the top value, and goes on with the one arm or the other. -/
structure Definition.Tests (definition : Definition) (onTrue onFalse : List String) : Prop where
  body : definition.body = "DUP" :: "IF" :: (onTrue ++ "ELSE" :: (onFalse ++ ["END"]))
  onTrue : Block.Bracketed onTrue
  onFalse : Block.Bracketed onFalse

theorem Block.Bracketed.of_undelimited {terms : List String}
    (h : ∀ term ∈ terms, term ∉ delimiters) : Bracketed terms := by
  induction terms with
  | nil => exact .nil
  | cons term rest ih =>
    rw [List.forall_mem_cons] at h
    exact .term h.1 (ih h.2)

theorem Definition.Tests.bracketed {definition : Definition} {onTrue onFalse : List String}
    (h : definition.Tests onTrue onFalse) : Block.Bracketed definition.body := by
  rw [h.body]
  exact .term (by decide) (.branchElse h.onTrue h.onFalse .nil)

theorem Definition.countdown_tests : countdown.Tests ["PUSH", "1", "SUB", "LOOP"] ["POP"] :=
  ⟨rfl, .of_undelimited (by decide), .of_undelimited (by decide)⟩

theorem Definition.tally_tests : tally.Tests ["PUSH", "1", "SUB", "R", "PUSH", "1"] [] :=
  ⟨rfl, .of_undelimited (by decide), .nil⟩

theorem Definition.bracketed_of_mem {definition : Definition}
    (h : definition ∈ [countdown, tally]) : Block.Bracketed definition.body := by
  simp only [List.mem_cons, List.not_mem_nil, or_false] at h
  rcases h with rfl | rfl
  · exact countdown_tests.bracketed
  · exact tally_tests.bracketed

theorem Definition.name_ne_of_mem {definition : Definition} (h : definition ∈ [countdown, tally])
    (builtin : Builtin) : builtin.name ≠ definition.name := by
  simp only [List.mem_cons, List.not_mem_nil, or_false] at h
  rcases h with rfl | rfl <;> cases builtin with
  | go direction => cases direction <;> decide
  | _ => decide

namespace Machine

/-- The run is live, with the given terms pending and the given stack. -/
structure Faces (m : Machine σ) (pending : List String) (stack : List Int) : Prop where
  live : m.phase.isFinal = false
  pending : m.memory.pending = pending
  stack : m.memory.stack = stack

/-- The built-in operations among the terms are active, and nothing stands in for them. -/
def Plain (m : Machine σ) (terms : List String) : Prop :=
  ∀ builtin : Builtin, builtin.name ∈ terms →
    m.resolve builtin.name = some (.operation builtin.operation)

/-- The definition is made, and the built-in operations that it uses are plain. -/
structure Knows (m : Machine σ) (definition : Definition) : Prop where
  defined : m.memory.definitions.find? definition.name = some definition
  plain : m.Plain definition.body

/-- The machine so many steps later, with the given terms pending and the given stack. Only the
journal has changed besides. -/
def onward (m : Machine σ) (n : Nat) (pending : List String) (stack : List Int)
    (journal : List Event) : Machine σ :=
  { m with
    memory := { m.memory with pending := pending, stack := stack, journal := journal }
    steps := m.steps + n
    phase := .running }

/-- The run comes to the limit of its steps, and fails for it. -/
def ExhaustsLimit [World σ] (m : Machine σ) : Prop :=
  ∃ n last, n ≤ (m.maxSteps - m.steps).toNat ∧ EndsAfter n m last ∧
    last.phase = .failed ∧ last.error = limitFault m.maxSteps

/-- The run fails for its limit, with the `limitFault`. -/
def FailsForLimit [World σ] (m : Machine σ) : Prop :=
  ∃ last, run m = outcome last ∧ last.phase = .failed ∧ last.error = limitFault m.maxSteps

/-- So many steps lead to the given pending terms and the given stack, if the limit allows for them;
else the run fails for its limit. -/
def Leads [World σ] (m : Machine σ) (n : Nat) (pending : List String) (stack : List Int) : Prop :=
  (((m.steps + n : Nat) : Int) ≤ m.maxSteps →
    ∃ journal, Walk n m (m.onward n pending stack journal)) ∧
  (m.maxSteps < ((m.steps + n : Nat) : Int) → m.ExhaustsLimit)

variable {m : Machine σ} {rest pending pending' : List String} {stack stack' : List Int}

theorem onward_faces (m : Machine σ) (n : Nat) (pending : List String) (stack : List Int)
    (journal : List Event) : (m.onward n pending stack journal).Faces pending stack :=
  ⟨rfl, rfl, rfl⟩

theorem Knows.onward {definition : Definition} (h : m.Knows definition) (n : Nat)
    (pending : List String) (stack : List Int) (journal : List Event) :
    (m.onward n pending stack journal).Knows definition :=
  ⟨h.defined, h.plain⟩

/-- A definition stands in for no other name than its own. -/
theorem resolve_of_insert {next : Machine σ} {definition : Definition} {name : String}
    (hdefinitions : next.memory.definitions = m.memory.definitions.insert definition)
    (hoperations : next.operations = m.operations) (hname : name ≠ definition.name) :
    next.resolve name = m.resolve name := by
  have hfind : next.memory.definitions.find? name = m.memory.definitions.find? name := by
    rw [hdefinitions, Lexicon.find?_insert]
    exact if_neg hname
  unfold resolve lookup
  rw [hfind, hoperations]

/-! ## One part of a run after the other -/

section

variable [World σ] {n k : Nat}

theorem ExhaustsLimit.of_walk {m' : Machine σ} (hwalk : Walk n m m')
    (hlimit : m'.maxSteps = m.maxSteps) (hsteps : m'.steps = m.steps + n)
    (hroom : ((m.steps + n : Nat) : Int) ≤ m.maxSteps) (h : m'.ExhaustsLimit) :
    m.ExhaustsLimit := by
  obtain ⟨k, last, hk, ⟨stop, progress, hwalk', hstep, hgoes⟩, hphase, herror⟩ := h
  refine ⟨n + k, last, ?_, ⟨stop, progress, hwalk.trans hwalk', hstep, hgoes⟩, hphase, ?_⟩
  · omega
  · rw [herror, hlimit]

theorem Leads.trans (h : m.Leads n pending stack)
    (h' : ∀ journal, (m.onward n pending stack journal).Leads k pending' stack') :
    m.Leads (n + k) pending' stack' := by
  by_cases hfirst : ((m.steps + n : Nat) : Int) ≤ m.maxSteps
  · obtain ⟨journal, hwalk⟩ := h.1 hfirst
    obtain ⟨hwithin, hbeyond⟩ := h' journal
    have hsteps : (m.onward n pending stack journal).steps + k = m.steps + (n + k) :=
      Nat.add_assoc m.steps n k
    rw [hsteps] at hwithin hbeyond
    refine ⟨fun hroom => ?_, fun hover => ?_⟩
    · obtain ⟨journal', hwalk'⟩ := hwithin hroom
      have hlast : (m.onward n pending stack journal).onward k pending' stack' journal' =
          m.onward (n + k) pending' stack' journal' := by
        simp only [onward, Nat.add_assoc]
      rw [hlast] at hwalk'
      exact ⟨journal', hwalk.trans hwalk'⟩
    · exact .of_walk hwalk rfl rfl hfirst (hbeyond hover)
  · exact ⟨fun hroom => absurd hroom (by omega), fun _ => h.2 (by omega)⟩

/-- Rounds without end use up every limit. The room that the limit leaves is the measure. -/
theorem exhausts_of_rounds {P : Machine σ → Prop}
    (hround : ∀ m, P m → ∃ n pending stack, 0 < n ∧ m.Leads n pending stack ∧
      ∀ journal, P (m.onward n pending stack journal)) (h : P m) : m.ExhaustsLimit := by
  induction hroom : (m.maxSteps - m.steps).toNat using Nat.strongRecOn generalizing m with
  | ind room ih =>
    obtain ⟨n, pending, stack, hn, hleads, hnext⟩ := hround m h
    by_cases hfits : ((m.steps + n : Nat) : Int) ≤ m.maxSteps
    · obtain ⟨journal, hwalk⟩ := hleads.1 hfits
      have hless : ((m.onward n pending stack journal).maxSteps -
          (m.onward n pending stack journal).steps).toNat < room := by
        show (m.maxSteps - ((m.steps + n : Nat) : Int)).toNat < room
        omega
      exact .of_walk hwalk rfl rfl hfits (ih _ hless (hnext journal) rfl)
    · exact hleads.2 (by omega)

theorem ExhaustsLimit.fails (h : m.ExhaustsLimit) : m.FailsForLimit := by
  obtain ⟨n, last, hn, hends, hphase, herror⟩ := h
  exact ⟨last, hends.run_eq (show n ≤ m.maxSteps.toNat by omega), hphase, herror⟩

theorem FailsForLimit.run_eq (h : m.FailsForLimit) (hwritable : Text.isWritable m.maxSteps = true) :
    ∃ last, run m = .error (.fault (.programTooLong m.maxSteps)) last := by
  obtain ⟨last, hrun, -, herror⟩ := h
  refine ⟨last, ?_⟩
  rw [hrun, outcome_eq, herror, limitFault_of_isWritable hwritable]

theorem Leads.stepTimes_or_fails (h : m.Leads n pending stack) :
    (((m.steps + n : Nat) : Int) ≤ m.maxSteps →
      ∃ journal, stepTimes n m = .ok () (m.onward n pending stack journal)) ∧
    (m.maxSteps < ((m.steps + n : Nat) : Int) → m.FailsForLimit) := by
  refine ⟨fun hroom => ?_, fun hover => (h.2 hover).fails⟩
  obtain ⟨journal, hwalk⟩ := h.1 hroom
  exact ⟨journal, hwalk.stepTimes_eq⟩

/-! ## One step -/

/-- The step of a term whose effect is a task on the memory that raises nothing. -/
theorem step_of_task (hq : QuietHooks σ) {name : String} {entry : Entry} {task : Task σ Unit}
    {memory : Memory σ} (hlive : m.phase.isFinal = false)
    (hpending : m.memory.pending = name :: rest) (hresolve : m.resolve name = some entry)
    (hdepth : entry.minDepth ≤ m.memory.stack.length)
    (hperform : entry.perform (stepAt (nestingLimit - 1)) = Run.within task)
    (htask : task (m.taken name rest) = .ok () memory) :
    step m =
      if m.maxSteps < ((m.steps + 1 : Nat) : Int) then
        settle (Raised.ofFault (.programTooLong m.maxSteps))
          { m with memory := memory, steps := m.steps + 1, phase := .running }
      else
        .ok entry.category.progress
          { m with memory := memory, steps := m.steps + 1, phase := entry.category.phase } := by
  let taken := { m with phase := .running }.taken name rest
  have htaken : task taken = .ok () memory := htask
  have hwithin : Run.within task { m with memory := taken, phase := .running } =
      .ok () { m with memory := memory, phase := .running } := by
    simp only [Run.within, htaken]
  rw [step_eq_stepWith, stepWith_term _ hlive hpending,
    dispatch_entry (m := { m with phase := .running }) hresolve rest hdepth, hperform,
    bind_apply_ok hwithin, bind_apply, conclude_quiet hq]
  by_cases hlimit : m.maxSteps < ((m.steps + 1 : Nat) : Int)
  · simp only [if_pos hlimit]
    exact report_error_running rfl
  · simp only [if_neg hlimit]
    exact report_ok_running rfl

theorem exhaustsLimit_of_settle {after : Machine σ}
    (hstep : step m = settle (Raised.ofFault (.programTooLong m.maxSteps)) after) :
    m.ExhaustsLimit := by
  obtain ⟨last, hsettle, hphase, herror, -⟩ := settle_limit m.maxSteps after
  exact ⟨0, last, Nat.zero_le _, ⟨m, .failed, .refl m, hstep.trans hsettle, rfl⟩, hphase, herror⟩

theorem leads_of_task (hq : QuietHooks σ) {name : String} {entry : Entry} {task : Task σ Unit}
    {journal : List Event} (h : m.Faces (name :: rest) stack)
    (hresolve : m.resolve name = some entry) (hdepth : entry.minDepth ≤ stack.length)
    (hperform : entry.perform (stepAt (nestingLimit - 1)) = Run.within task)
    (hcategory : entry.category ≠ .action)
    (htask : task (m.taken name rest) =
      .ok () { m.memory with pending := pending', stack := stack', journal := journal }) :
    m.Leads 1 pending' stack' := by
  have hstep := step_of_task hq h.live h.pending hresolve (by rw [h.stack]; exact hdepth) hperform
    htask
  refine ⟨fun hroom => ?_, fun hover => ?_⟩
  · rw [if_neg (by omega), Category.phase, if_neg hcategory] at hstep
    exact ⟨journal, .cons hstep (Category.goesOn_progress _) (.refl _)⟩
  · rw [if_pos hover] at hstep
    exact exhaustsLimit_of_settle hstep

theorem leads_call (hq : QuietHooks σ) {definition : Definition} (hknows : m.Knows definition)
    (h : m.Faces (definition.name :: rest) stack) :
    m.Leads 1 (definition.body ++ rest) stack := by
  have hresolve : m.resolve definition.name = some (.definition definition) := by
    unfold resolve
    rw [hknows.defined]
  have htask : Task.splice definition.body (m.taken definition.name rest) = .ok ()
      { m.memory with
        pending := definition.body ++ rest
        stack := stack
        journal := (m.taken definition.name rest).journal } := by
    rw [← h.stack]
    rfl
  exact leads_of_task hq h hresolve (Int.natCast_nonneg _) rfl (by simp [Entry.category]) htask

theorem leads_builtin (hq : QuietHooks σ) (builtin : Builtin) {journal : List Event}
    (hresolve : m.resolve builtin.name = some (.operation builtin.operation))
    (h : m.Faces (builtin.name :: rest) stack) (hdepth : builtin.minDepth ≤ stack.length)
    (hcategory : builtin.category ≠ .action)
    (htask : builtin.perform (m.taken builtin.name rest) =
      .ok () { m.memory with pending := pending', stack := stack', journal := journal }) :
    m.Leads 1 pending' stack' :=
  leads_of_task hq h hresolve (Int.ofNat_le.mpr hdepth) rfl hcategory htask

/-- The step of an operation that changes nothing but the stack. -/
theorem leads_stack (hq : QuietHooks σ) (builtin : Builtin)
    (hresolve : m.resolve builtin.name = some (.operation builtin.operation))
    (h : m.Faces (builtin.name :: rest) stack) (hdepth : builtin.minDepth ≤ stack.length)
    (hcategory : builtin.category ≠ .action)
    (hperform : ∀ memory : Memory σ, memory.stack = stack →
      builtin.perform memory = .ok () { memory with stack := stack' }) : m.Leads 1 rest stack' :=
  leads_builtin hq builtin hresolve h hdepth hcategory
    (hperform (m.taken builtin.name rest) h.stack)

theorem leads_push (hq : QuietHooks σ) {operand : String} {value : Int}
    (hresolve : m.resolve "PUSH" = some (.operation Builtin.push.operation))
    (hvalue : Builtin.digit operand = .ok value) (h : m.Faces ("PUSH" :: operand :: rest) stack) :
    m.Leads 1 rest (value :: stack) := by
  have htask : Builtin.push.perform (m.taken "PUSH" (operand :: rest)) = .ok ()
      { m.memory with
        pending := rest
        stack := value :: stack
        journal := (m.taken "PUSH" (operand :: rest)).journal } := by
    rw [← h.stack]
    refine (Builtin.pushLiteral_cons rfl).trans ?_
    rw [hvalue]
    rfl
  exact leads_builtin hq .push hresolve h (Nat.zero_le _) (by decide) htask

theorem leads_branch (hq : QuietHooks σ) {onTrue onFalse : List String} {condition : Int}
    (hresolve : m.resolve "IF" = some (.operation Builtin.branch.operation))
    (htrue : Block.Bracketed onTrue) (hfalse : Block.Bracketed onFalse)
    (h : m.Faces ("IF" :: (onTrue ++ "ELSE" :: (onFalse ++ "END" :: rest))) (condition :: stack)) :
    m.Leads 1 ((if condition ≠ 0 then onTrue else onFalse) ++ rest) stack := by
  let taken := m.taken "IF" (onTrue ++ "ELSE" :: (onFalse ++ "END" :: rest))
  have htask : Builtin.branch.perform taken = .ok ()
      { m.memory with
        pending := (if condition ≠ 0 then onTrue else onFalse) ++ rest
        stack := stack
        journal := taken.journal } := by
    refine (Builtin.choose_cons (m := taken)
      (Block.Arms.split_of_bracketed_else htrue hfalse rest) h.stack).trans ?_
    show EStateM.Result.ok () { taken with
      stack := stack
      pending := (if condition ≠ 0 then onTrue else onFalse) ++
        (onTrue ++ "ELSE" :: (onFalse ++ "END" :: rest)).drop
          (onTrue.length + 1 + onFalse.length + 1) } = _
    rw [Block.drop_block_else]
    rfl
  exact leads_builtin hq .branch hresolve h (Nat.succ_pos _) (by decide) htask

/-! ## The rounds -/

/-- The test of a definition takes three steps. -/
theorem leads_test (hq : QuietHooks σ) {definition : Definition} {onTrue onFalse : List String}
    {value : Int} (htests : definition.Tests onTrue onFalse) (hknows : m.Knows definition)
    (h : m.Faces (definition.name :: rest) (value :: stack)) :
    m.Leads 3 ((if value ≠ 0 then onTrue else onFalse) ++ rest) (value :: stack) := by
  have hdup := hknows.plain .dup (by simp [htests.body, Builtin.name])
  have hif := hknows.plain .branch (by simp [htests.body, Builtin.name])
  have hcall := leads_call hq hknows h
  have hterms : definition.body ++ rest =
      "DUP" :: "IF" :: (onTrue ++ "ELSE" :: (onFalse ++ "END" :: rest)) := by
    simp [htests.body]
  rw [hterms] at hcall
  have hcopy : m.Leads 2 _ (value :: value :: stack) := hcall.trans fun journal =>
    leads_stack hq .dup hdup (onward_faces ..) (Nat.succ_pos _) (by decide) fun memory hstack => by
      simp only [Builtin.perform, Task.rearrange, hstack]
  exact hcopy.trans fun journal =>
    leads_branch hq hif htests.onTrue htests.onFalse (onward_faces ..)

theorem leads_decrement (hq : QuietHooks σ) {value : Int}
    (hpush : m.resolve "PUSH" = some (.operation Builtin.push.operation))
    (hsub : m.resolve "SUB" = some (.operation Builtin.sub.operation))
    (h : m.Faces ("PUSH" :: "1" :: "SUB" :: rest) (value :: stack)) :
    m.Leads 2 rest ((value - 1) :: stack) := by
  have hone : m.Leads 1 ("SUB" :: rest) (1 :: value :: stack) := leads_push hq hpush rfl h
  exact hone.trans fun journal =>
    leads_stack hq .sub hsub (onward_faces ..) (Nat.le_add_left _ _) (by decide)
      fun memory hstack => by
        simp only [Builtin.perform, Builtin.combine, Task.rearrange, hstack]

theorem leads_countdown_round (hq : QuietHooks σ) {value : Int} (hvalue : value ≠ 0)
    (hknows : m.Knows .countdown) (h : m.Faces ("LOOP" :: rest) (value :: stack)) :
    m.Leads 5 ("LOOP" :: rest) ((value - 1) :: stack) := by
  have htest := leads_test hq Definition.countdown_tests hknows h
  rw [if_pos hvalue] at htest
  exact htest.trans fun journal => leads_decrement hq (hknows.plain .push (by decide))
    (hknows.plain .sub (by decide)) (onward_faces ..)

/-- A countdown to zero. -/
theorem leads_countdown (hq : QuietHooks σ) (n : Nat) (hknows : m.Knows .countdown)
    (h : m.Faces ("LOOP" :: rest) ((n : Int) :: stack)) : m.Leads (5 * n + 4) rest stack := by
  induction n generalizing m with
  | zero =>
    have htest := leads_test hq Definition.countdown_tests hknows h
    exact htest.trans fun journal =>
      leads_stack hq .pop (hknows.plain .pop (by decide)) (onward_faces ..) (Nat.succ_pos _)
        (by decide) fun memory hstack => by simp only [Builtin.perform, Task.rearrange, hstack]
  | succ n ih =>
    have hround := leads_countdown_round hq (by omega) hknows h
    rw [show ((n + 1 : Nat) : Int) - 1 = n by omega] at hround
    rw [show 5 * (n + 1) + 4 = 5 + (5 * n + 4) by omega]
    exact hround.trans fun journal => ih (hknows.onward ..) (onward_faces ..)

/-- A round of the countdown begins, from below zero. -/
def CountsBelowZero (rest : List String) (stack : List Int) (m : Machine σ) : Prop :=
  m.Knows .countdown ∧ ∃ value < 0, m.Faces ("LOOP" :: rest) (value :: stack)

/-- A countdown from below zero gets further away from it with every round. -/
theorem CountsBelowZero.exhausts (hq : QuietHooks σ) (h : m.CountsBelowZero rest stack) :
    m.ExhaustsLimit := by
  refine exhausts_of_rounds (P := CountsBelowZero rest stack) ?_ h
  rintro m ⟨hknows, value, hvalue, h⟩
  refine ⟨5, _, _, Nat.succ_pos 4, leads_countdown_round hq (by omega) hknows h, fun journal => ?_⟩
  exact ⟨hknows.onward .., value - 1, by omega, onward_faces ..⟩

/-- A round of the tally leaves two terms pending that push a one. -/
theorem leads_tally_round (hq : QuietHooks σ) {value : Int} (hvalue : value ≠ 0)
    (hknows : m.Knows .tally) (h : m.Faces ("R" :: rest) (value :: stack)) :
    m.Leads 5 ("R" :: "PUSH" :: "1" :: rest) ((value - 1) :: stack) := by
  have htest := leads_test hq Definition.tally_tests hknows h
  rw [if_pos hvalue] at htest
  exact htest.trans fun journal => leads_decrement hq (hknows.plain .push (by decide))
    (hknows.plain .sub (by decide)) (onward_faces ..)

/-- A tally of a natural number. The ones are pushed on the way back, so the induction is over all
terms that may follow: each round leaves two more. -/
theorem leads_tally (hq : QuietHooks σ) (n : Nat) (hknows : m.Knows .tally)
    (h : m.Faces ("R" :: rest) ((n : Int) :: stack)) :
    m.Leads (6 * n + 3) rest (List.replicate n 1 ++ 0 :: stack) := by
  induction n generalizing m rest with
  | zero => exact leads_test hq Definition.tally_tests hknows h
  | succ n ih =>
    have hround := leads_tally_round hq (by omega) hknows h
    rw [show ((n + 1 : Nat) : Int) - 1 = n by omega] at hround
    -- The inner call returns to the two terms that this round has left.
    have hinner := hround.trans fun journal => ih (hknows.onward ..) (onward_faces ..)
    rw [show 6 * (n + 1) + 3 = 5 + (6 * n + 3) + 1 by omega]
    exact hinner.trans fun journal =>
      leads_push hq (hknows.plain .push (by decide)) rfl (onward_faces ..)

/-! ## The definition itself -/

/-- The step that makes a definition. -/
theorem step_makes (hq : QuietHooks σ) {definition : Definition}
    (hbody : Block.Bracketed definition.body)
    (hname : ∀ builtin : Builtin, builtin.name ≠ definition.name)
    (hplain : m.Plain definition.terms) (h : m.Faces (definition.terms ++ rest) stack) :
    (((m.steps + 1 : Nat) : Int) ≤ m.maxSteps →
      ∃ next, step m = .ok .ongoing next ∧ next.steps = m.steps + 1 ∧ SameSetup m next ∧
        next.Faces rest stack ∧ next.Knows definition) ∧
    (m.maxSteps < ((m.steps + 1 : Nat) : Int) → m.ExhaustsLimit) := by
  have hterms : definition.terms ++ rest =
      "DEF" :: definition.name :: (definition.body ++ "END" :: rest) := by
    simp [Definition.terms]
  rw [hterms] at h
  let taken := m.taken "DEF" (definition.name :: (definition.body ++ "END" :: rest))
  have htask : Builtin.define.perform taken = .ok ()
      { taken with
        pending := rest
        definitions := m.memory.definitions.insert definition
        journal := Builtin.bindingJournal taken definition.name } := by
    have hbind := Builtin.bind_cons (m := taken) rfl (Block.closing_of_bracketed hbody rest)
    rw [Block.drop_block, List.take_left] at hbind
    exact hbind
  have hdefine : m.resolve "DEF" = some (.operation Builtin.define.operation) :=
    hplain .define (by simp [Definition.terms, Builtin.name])
  have hstep := step_of_task hq h.live h.pending hdefine (Int.natCast_nonneg _) rfl htask
  refine ⟨fun hroom => ?_, fun hover => ?_⟩
  · rw [if_neg (by omega)] at hstep
    refine ⟨_, hstep, rfl, ⟨rfl, rfl, rfl⟩, ⟨rfl, rfl, h.stack⟩, ?_, fun builtin hmem => ?_⟩
    · show (m.memory.definitions.insert definition).find? definition.name = some definition
      rw [Lexicon.find?_insert]
      exact if_pos rfl
    · have hused : builtin.name ∈ definition.terms := by simp [Definition.terms, hmem]
      rw [← hplain builtin hused]
      exact resolve_of_insert rfl rfl (hname builtin)
  · rw [if_pos hover] at hstep
    exact exhaustsLimit_of_settle hstep

theorem countdown_exhausts (hq : QuietHooks σ) {n : Int} (hn : n < 0) (hknows : m.Knows .countdown)
    (h : m.Faces ("LOOP" :: rest) (n :: stack)) : m.ExhaustsLimit := by
  have hbelow : m.CountsBelowZero rest stack := ⟨hknows, n, hn, h⟩
  exact hbelow.exhausts hq

/-- The step that makes the countdown may be the one that uses up the limit. -/
theorem countdown_made_exhausts (hq : QuietHooks σ) {n : Int} (hn : n < 0)
    (hplain : m.Plain Definition.countdown.terms)
    (h : m.Faces (Definition.countdown.terms ++ "LOOP" :: rest) (n :: stack)) :
    m.ExhaustsLimit := by
  obtain ⟨hmade, hover⟩ := step_makes hq (Definition.bracketed_of_mem (by simp))
    (Definition.name_ne_of_mem (by simp)) hplain h
  by_cases hroom : ((m.steps + 1 : Nat) : Int) ≤ m.maxSteps
  · obtain ⟨next, hstep, hsteps, hsame, hfaces, hknows⟩ := hmade hroom
    have hwalk : Walk 1 m next := .cons hstep rfl (.refl next)
    exact (countdown_exhausts hq hn hknows hfaces).of_walk hwalk hsame.maxSteps hsteps hroom
  · exact hover (by omega)

/-- **Definitions that call themselves compute what they say, for every argument.** Let the words
that they use be the built-in ones. Then a `DEF` makes each of the two definitions in one step. A
countdown from a natural number returns after five steps for every round and four more, with the
value dropped and nothing else changed; from below zero it never returns: the run fails for its
limit, and with the fault `programTooLong` if the limit can be written. A tally of a natural number
returns after six steps for every round and three more, with a zero in the place of the number and
so many ones on top of it. If the limit does not allow for so many steps, the run fails for it. -/
theorem recursion_computes (hq : QuietHooks σ) (rest : List String) (stack : List Int) :
    (∀ definition ∈ [Definition.countdown, Definition.tally], ∀ m : Machine σ,
      m.Plain definition.terms → m.Faces (definition.terms ++ rest) stack →
      ((m.steps + 1 : Nat) : Int) ≤ m.maxSteps →
      ∃ next, step m = .ok .ongoing next ∧ next.steps = m.steps + 1 ∧ SameSetup m next ∧
        next.Faces rest stack ∧ next.Knows definition) ∧
    (∀ (m : Machine σ) (n : Nat), m.Knows .countdown →
      m.Faces ("LOOP" :: rest) ((n : Int) :: stack) →
      (((m.steps + (5 * n + 4) : Nat) : Int) ≤ m.maxSteps → ∃ journal,
        stepTimes (5 * n + 4) m = .ok () (m.onward (5 * n + 4) rest stack journal)) ∧
      (m.maxSteps < ((m.steps + (5 * n + 4) : Nat) : Int) → m.FailsForLimit)) ∧
    (∀ (m : Machine σ) (n : Int), n < 0 →
      m.Knows .countdown ∧ m.Faces ("LOOP" :: rest) (n :: stack) ∨
        m.Plain Definition.countdown.terms ∧
          m.Faces (Definition.countdown.terms ++ "LOOP" :: rest) (n :: stack) →
      m.FailsForLimit ∧
      (Text.isWritable m.maxSteps = true →
        ∃ last, run m = .error (.fault (.programTooLong m.maxSteps)) last)) ∧
    ∀ (m : Machine σ) (n : Nat), m.Knows .tally → m.Faces ("R" :: rest) ((n : Int) :: stack) →
      (((m.steps + (6 * n + 3) : Nat) : Int) ≤ m.maxSteps → ∃ journal,
        stepTimes (6 * n + 3) m =
          .ok () (m.onward (6 * n + 3) rest (List.replicate n 1 ++ 0 :: stack) journal)) ∧
      (m.maxSteps < ((m.steps + (6 * n + 3) : Nat) : Int) → m.FailsForLimit) := by
  refine ⟨fun definition hmem m hplain h hroom => ?_, fun m n hknows h => ?_, fun m n hn h => ?_,
    fun m n hknows h => ?_⟩
  · exact (step_makes hq (Definition.bracketed_of_mem hmem) (Definition.name_ne_of_mem hmem) hplain
      h).1 hroom
  · exact (leads_countdown hq n hknows h).stepTimes_or_fails
  · have hfails : m.FailsForLimit := by
      rcases h with ⟨hknows, h⟩ | ⟨hplain, h⟩
      · exact (countdown_exhausts hq hn hknows h).fails
      · exact (countdown_made_exhausts hq hn hplain h).fails
    exact ⟨hfails, hfails.run_eq⟩
  · exact (leads_tally hq n hknows h).stepTimes_or_fails

/-- A countdown from three and a tally of two return after nineteen and fifteen steps; a countdown
from minus one fails for the limit of thirty. -/
theorem recursion_computes_three :
    (∃ next journal,
      step ((plain ({} : Void) 30).load (Definition.countdown.terms ++ ["LOOP", "UP"]) [3, 7]) =
        .ok .ongoing next ∧
      stepTimes 19 next = .ok () (next.onward 19 ["UP"] [7] journal)) ∧
    (∃ next journal,
      step ((plain ({} : Void) 30).load (Definition.tally.terms ++ ["R"]) [2]) = .ok .ongoing next ∧
      stepTimes 15 next = .ok () (next.onward 15 [] [1, 1, 0] journal)) ∧
    ∃ last, run ((plain ({} : Void) 30).load (Definition.countdown.terms ++ ["LOOP"]) [-1]) =
      .error (.fault (.programTooLong 30)) last := by
  have hplain : ∀ terms stack names, ((plain ({} : Void) 30).load terms stack).Plain names :=
    fun terms stack names builtin _ => resolve_builtin builtin rfl rfl
  have hwritable : Text.isWritable 30 = true := by decide +kernel
  refine ⟨?_, ?_, ?_⟩
  · obtain ⟨next, hstep, hsteps, hsame, hfaces, hknows⟩ :=
      (recursion_computes quietHooks_void ["LOOP", "UP"] [3, 7]).1 .countdown (by simp) _
        (hplain _ _ _) ⟨rfl, rfl, rfl⟩ (by decide)
    have hroom : ((next.steps + 19 : Nat) : Int) ≤ next.maxSteps := by
      rw [hsteps, hsame.maxSteps]
      decide
    obtain ⟨journal, hreturns⟩ :=
      ((recursion_computes quietHooks_void ["UP"] [7]).2.1 next 3 hknows hfaces).1 hroom
    exact ⟨next, journal, hstep, hreturns⟩
  · obtain ⟨next, hstep, hsteps, hsame, hfaces, hknows⟩ :=
      (recursion_computes quietHooks_void ["R"] [2]).1 .tally (by simp) _ (hplain _ _ _)
        ⟨rfl, rfl, rfl⟩ (by decide)
    have hroom : ((next.steps + 15 : Nat) : Int) ≤ next.maxSteps := by
      rw [hsteps, hsame.maxSteps]
      decide
    obtain ⟨journal, hreturns⟩ :=
      ((recursion_computes quietHooks_void [] []).2.2.2 next 2 hknows hfaces).1 hroom
    exact ⟨next, journal, hstep, hreturns⟩
  · obtain ⟨-, hfails⟩ := (recursion_computes quietHooks_void [] []).2.2.1
      ((plain ({} : Void) 30).load (Definition.countdown.terms ++ ["LOOP"]) [-1]) (-1) (by decide)
      (Or.inr ⟨hplain _ _ _, rfl, rfl, rfl⟩)
    exact hfails hwritable

/-- A countdown from minus one under a limit with too many digits: the run fails, but not with the
fault for the limit. -/
theorem countdown_unwritable_limit :
    ((plain ({} : Void) (-Text.firstTooLong)).load
        (Definition.countdown.terms ++ ["LOOP"]) [-1]).Plain
      Definition.countdown.terms ∧
    raisedOf (run ((plain ({} : Void) (-Text.firstTooLong)).load
        (Definition.countdown.terms ++ ["LOOP"]) [-1])) =
      some (.fault (.hostFailure (.tooManyDigits none) true)) := by
  refine ⟨fun builtin _ => resolve_builtin builtin rfl rfl, ?_⟩
  decide +kernel

end

end Machine

end StackRover
