import StackRover.Proofs.Pacing
import StackRover.Prompt
import StackRover.World.Plane
import StackRover.World.Void

/-!
# Sessions at the prompt

A session hears one input after the other, up to the first `bye` or to the end of the inputs, and
every input finds the machine that the one before it has left. Faults of programs are printed, each
in a line of its own. What is not caught is the failure to show a stack: a number of too many digits
on it ends the session, and nothing else does as long as the delay is not negative.

* `Machine.Prints`: what is only printed.
* `Machine.runPaced_cases`: the run of a line gives a stack or a fault, and prints no error itself.
* `Prompt.encounters`: the inputs of a session, with the machines that they find.
* `Prompt.respond_answers`, `Prompt.converse_met`: the response to one input, and to all.
* `Prompt.session_transcript`: when a session ends well, and what it prints.
-/

namespace StackRover

variable {σ : Type}

/-! ## Error lines -/

/-- The line that is printed for a fault. -/
def Fault.errorLine (fault : Fault) : Event := .line ("Error: " ++ fault.message)

/-- Whether the event prints a line for a fault. -/
def Event.isErrorLine : Event → Bool
  | .print text => "Error: ".toList.isPrefixOf text.toList
  | _ => false

theorem Fault.isErrorLine_errorLine (fault : Fault) : fault.errorLine.isErrorLine = true := by
  simp [errorLine, Event.line, Event.isErrorLine, String.toList_append]

theorem Event.isErrorLine_of_head? {text : String} (h : text.toList.head? ≠ some 'E') :
    (Event.print text).isErrorLine = false := by
  unfold isErrorLine
  simp only
  cases hlist : text.toList with
  | nil => rfl
  | cons c rest =>
    rw [hlist, List.head?_cons, ne_eq, Option.some_inj] at h
    simp [List.isPrefixOf, Ne.symm h]

/-- The lines printed for faults, the latest first. -/
def Memory.errors (m : Memory σ) : List Event := m.journal.filter Event.isErrorLine

/-- No request to the world prints a line that looks like one for a fault. -/
structure Unalarming (σ : Type) [World σ] : Prop where
  move : ∀ direction (w : σ), ∀ event ∈ (World.move direction w).events, event.isErrorLine = false
  lookAt : ∀ cell (w : σ), ∀ event ∈ (World.lookAt cell w).events, event.isErrorLine = false
  position : ∀ w : σ, ∀ event ∈ (World.position w).events, event.isErrorLine = false
  stackChanged : ∀ stack (w : σ), ∀ event ∈ (World.stackChanged stack w).events,
    event.isErrorLine = false
  stepped : ∀ steps (w : σ), ∀ event ∈ (World.stepped steps w).events, event.isErrorLine = false

namespace Machine

/-- The second machine is the first after something was printed, but no error line. -/
def Prints (m m' : Machine σ) : Prop :=
  ∃ added, (∀ event ∈ added, event.isErrorLine = false) ∧
    m' = m.rejournal (added ++ m.memory.journal)

variable {m m' m'' : Machine σ}

theorem Prints.refl (m : Machine σ) : m.Prints m :=
  ⟨[], fun _ hevent => absurd hevent List.not_mem_nil, rfl⟩

theorem Prints.trans (h : m.Prints m') (h' : m'.Prints m'') : m.Prints m'' := by
  obtain ⟨added, hadded, rfl⟩ := h
  obtain ⟨more, hmore, rfl⟩ := h'
  refine ⟨more ++ added, fun event hevent => ?_, ?_⟩
  · rcases List.mem_append.mp hevent with hmem | hmem
    · exact hmore event hmem
    · exact hadded event hmem
  · rw [List.append_assoc]
    rfl

theorem Prints.emit {event : Event} (h : event.isErrorLine = false) (m : Machine σ) :
    m.Prints (stateOf (Run.emit event m)) :=
  ⟨[event], fun _ hother => List.mem_singleton.mp hother ▸ h, rfl⟩

theorem Prints.say (text : String) (h : text.toList.head? ≠ some 'E') (m : Machine σ) :
    m.Prints (stateOf (Run.say text m)) := by
  apply Prints.emit
  apply Event.isErrorLine_of_head?
  rw [String.toList_append, List.head?_append]
  cases htext : text.toList with
  | nil => decide
  | cons c rest =>
    rw [htext] at h
    exact h

theorem Prints.sameSetup (h : m.Prints m') : SameSetup m m' := by
  obtain ⟨added, -, rfl⟩ := h
  exact ⟨rfl, rfl, rfl⟩

theorem Prints.errors (h : m.Prints m') : m'.memory.errors = m.memory.errors := by
  obtain ⟨added, hadded, rfl⟩ := h
  show (added ++ m.memory.journal).filter Event.isErrorLine = _
  have hnone : added.filter Event.isErrorLine = [] := by
    rw [List.filter_eq_nil_iff]
    intro event hevent
    rw [hadded event hevent]
    exact Bool.false_ne_true
  rw [List.filter_append, hnone]
  rfl

/-! ## Showing the stack -/

theorem mapM_decimal? (values : List Int) :
    values.mapM Text.decimal? =
      if values.all Text.isWritable then some (values.map Text.decimal) else none := by
  induction values with
  | nil => rfl
  | cons value values ih =>
    rw [List.mapM_cons, ih, List.all_cons, Text.decimal?]
    cases Text.isWritable value with
    | false => rfl
    | true =>
      cases values.all Text.isWritable with
      | false => rfl
      | true => rfl

theorem showStack_of_writable (h : m.memory.stack.all Text.isWritable = true) :
    ∃ next, showStack m = .ok () next ∧ m.Prints next := by
  have hall : m.memory.stack.reverse.all Text.isWritable = true := by
    rw [List.all_reverse]
    exact h
  unfold showStack formatStack
  rw [bind_apply_ok (get_apply m), mapM_decimal?, if_pos hall]
  refine ⟨_, rfl, Prints.say _ ?_ m⟩
  rw [String.append_assoc, String.toList_append]
  exact fun h => by cases h

theorem showStack_of_unwritable (h : m.memory.stack.all Text.isWritable = false) :
    showStack m = .error (.failure (.tooManyDigits none)) m := by
  have hall : m.memory.stack.reverse.all Text.isWritable = false := by
    rw [List.all_reverse]
    exact h
  unfold showStack formatStack
  rw [bind_apply_ok (get_apply m), mapM_decimal?, hall]
  rfl

end Machine

/-! ## Runs -/

theorem Memory.durable_errors (errors : List Event) :
    Memory.Durable fun m : Memory σ => m.errors = errors :=
  ⟨fun _ h => h, fun _ h => h, fun _ h => h, fun _ h => h⟩

theorem Task.ask_errors {α : Type} {request : σ → Reply σ α}
    (h : ∀ w, ∀ event ∈ (request w).events, event.isErrorLine = false) (errors : List Event) :
    Respects (fun m : Memory σ => m.errors = errors) (fun _ => True) (ask request) := by
  refine ⟨fun m hm => ?_, fun _ _ _ _ => trivial⟩
  have hnone : (request m.world).events.reverse.filter Event.isErrorLine = [] := by
    rw [List.filter_eq_nil_iff]
    intro event hevent
    rw [h m.world event (List.mem_reverse.mp hevent)]
    exact Bool.false_ne_true
  have hafter :
      ((request m.world).events.reverse ++ m.journal).filter Event.isErrorLine = errors := by
    rw [List.filter_append, hnone]
    exact hm
  unfold ask
  simp only
  cases (request m.world).result <;> exact hafter

theorem Paced.errors {delay : Int} {n : Nat} {journal paced : List Event}
    (h : Paced delay n journal paced) :
    paced.filter Event.isErrorLine = journal.filter Event.isErrorLine := by
  induction h with
  | nil => rfl
  | event event _ ih => rw [List.filter_cons, List.filter_cons, ih]
  | pause _ ih => exact ih

namespace Machine

variable {m m' : Machine σ} [World σ]

/-- No run prints an error line of its own. -/
theorem reaches_errors (hcalm : Unalarming σ) (hm : m.Unhosted) (h : Reaches m m') :
    m'.memory.errors = m.memory.errors := by
  have hdurable : Memory.Durable fun memory : Memory σ => memory.errors = m.memory.errors :=
    Memory.durable_errors _
  refine reaches_keeps hdurable hm (fun builtin _ => ?_) ⟨?_, ?_⟩ rfl h
  · refine Builtin.perform_respects hdurable (fun _ _ => trivial) (fun _ _ _ hm => hm) ?_ ?_ ?_
    · exact fun _ direction => Task.ask_errors (hcalm.move direction) _
    · exact fun _ => Task.ask_errors hcalm.position _
    · exact fun _ cell => Task.ask_errors (hcalm.lookAt cell) _
  · exact fun stack => Task.ask_errors (hcalm.stackChanged stack) _
  · exact fun steps => Task.ask_errors (hcalm.stepped steps) _

theorem Steady.of_walk {permitted : Raised → Prop} {n : Nat} (hm : m.Steady permitted)
    (h : Walk n m m') : m'.Steady permitted := by
  induction h with
  | refl m => exact hm
  | cons hstep hgoes _ ih => exact ih (hm.step_goesOn hstep hgoes).1

/-- The paced run of a text is its run at one go, with pauses in the journal. -/
theorem Steady.runPaced_eq {permitted : Raised → Prop} (hm : m.Steady permitted) {delay : Int}
    (hdelay : 0 ≤ delay) (text : String) (stack : List Int) :
    ∃ n journal, Paced delay n
        (stateOf (run (m.load (Program.tokenize text) stack))).memory.journal journal ∧
      runPaced delay text stack m =
        mapState (rejournal journal) (run (m.load (Program.tokenize text) stack)) := by
  have hload : (m.load (Program.tokenize text) stack).Steady permitted :=
    hm.of_sameSetup (load_sameSetup m _ stack)
  obtain ⟨n, k, stop, hstrides, hn, hstop, -, hrun⟩ := hload.exists_strides
  obtain ⟨journal, hpaced, hfinish⟩ := hstrides.finish_paced hstop hn (Or.inl hdelay)
  rw [runPaced_eq_finish, hrun, stateOf_outcomeOf]
  exact ⟨_, journal, hpaced, hfinish⟩

/-- A run at one go ends in the outcome of a machine. -/
theorem Steady.exists_outcome (hm : m.Steady fun raised => raised.ending? ≠ none) :
    ∃ last, run m = outcome last := by
  obtain ⟨n, k, stop, hstrides, -, -, -, hrun⟩ := hm.exists_strides
  obtain ⟨progress, last, hstep, -⟩ := (hm.of_walk hstrides.walk).step_ok
  rw [hstep] at hrun
  exact ⟨last, hrun⟩

/-- The run of a line gives a stack or a fault: nothing else escapes from it. It leaves the setup as
it was, and prints no error line itself. -/
theorem runPaced_cases (hworld : RaisesOnly σ fun raised => raised.ending? ≠ none)
    (hcalm : Unalarming σ) (hm : m.Unhosted) {delay : Int} (hdelay : 0 ≤ delay) (text : String)
    (stack : List Int) :
    ∃ last, runPaced delay text stack m = outcome last ∧ SameSetup m last ∧
      last.memory.errors = m.memory.errors := by
  have hsteady : m.Steady fun raised => raised.ending? ≠ none :=
    hm.steady hworld fun _ hraised => hraised.ending?_ne_none
  have hsame : SameSetup m (m.load (Program.tokenize text) stack) := load_sameSetup m _ stack
  have herrors : (m.load (Program.tokenize text) stack).memory.errors = m.memory.errors := by
    unfold load
    cases Program.tokenize text <;> rfl
  obtain ⟨n, journal, hpaced, hrun⟩ := hsteady.runPaced_eq hdelay text stack
  generalize m.load (Program.tokenize text) stack = start at hsame herrors hpaced hrun
  have hunhosted := hsame.unhosted hm
  obtain ⟨last, hlast⟩ := (hsteady.of_sameSetup hsame).exists_outcome
  have hreaches := reaches_run start
  rw [hlast, stateOf_outcome] at hpaced hreaches
  refine ⟨last.rejournal journal, ?_, ?_, ?_⟩
  · rw [hrun, hlast, outcome_rejournal]
  · exact hsame.trans ((hreaches.sameSetup hunhosted).trans ⟨rfl, rfl, rfl⟩)
  · calc (last.rejournal journal).memory.errors
        = last.memory.errors := hpaced.errors
      _ = start.memory.errors := reaches_errors hcalm hunhosted hreaches
      _ = m.memory.errors := herrors

end Machine

namespace Prompt

open Machine

/-! ## Responses -/

/-- The machine after the greeting. -/
def greeted (m : Machine σ) : Machine σ := stateOf (greet m)

/-- The machine after it has asked for a line. -/
def asked (m : Machine σ) : Machine σ := stateOf (ask m)

variable {α β : Type} {m m' : Machine σ} {printed : Option Fault} {writable : Bool}

theorem asked_prints (m : Machine σ) : m.Prints (asked m) := Prints.emit (by decide) m

theorem greeted_prints (m : Machine σ) : m.Prints (greeted m) := by
  have htitle := Prints.say "Stacked interpreter" (by decide) m
  have hhelp := Prints.say "Type 'bye' to quit, 'words' for the opcode list" (by decide)
    (stateOf (Run.say "Stacked interpreter" m))
  exact (htitle.trans hhelp).trans (Prints.say "" (by decide) _)

/-- How the machine is left by a response that prints a line for the fault, if there is one, and
nothing else that looks like it: the value is given if the stack can be shown, and otherwise the
failure to write it is raised. -/
structure Answers (m : Machine σ) (printed : Option Fault) (writable : Bool) (value : α)
    (result : EStateM.Result Raised (Machine σ) α) : Prop where
  setup : SameSetup m (stateOf result)
  errors : (stateOf result).memory.errors = (printed.map Fault.errorLine).toList ++ m.memory.errors
  verdict : if writable then valueOf result = some value
    else raisedOf result = some (.failure (.tooManyDigits none))

theorem Answers.of_prints (h : m.Prints m') (value : α) :
    Answers m none true value (.ok value m') :=
  ⟨h.sameSetup, h.errors, rfl⟩

/-- What is done before a response, and what it prints for a fault, belong to the response. -/
theorem Answers.after {value : α} {result : EStateM.Result Raised (Machine σ) α}
    (h : Answers m' none writable value result) (hsame : SameSetup m m')
    (herrors : m'.memory.errors = (printed.map Fault.errorLine).toList ++ m.memory.errors) :
    Answers m printed writable value result :=
  ⟨hsame.trans h.setup, h.errors.trans herrors, h.verdict⟩

theorem Answers.bind_pure {x : Run σ α} {value : α} (h : Answers m printed writable value (x m))
    (value' : β) : Answers m printed writable value' ((x >>= fun _ => pure value') m) := by
  obtain ⟨hsetup, herrors, hverdict⟩ := h
  rw [bind_apply]
  cases hx : x m with
  | ok a next =>
    rw [hx] at hsetup herrors hverdict
    refine ⟨hsetup, herrors, ?_⟩
    cases writable with
    | true => rfl
    | false => cases hverdict
  | error raised next =>
    rw [hx] at hsetup herrors hverdict
    refine ⟨hsetup, herrors, ?_⟩
    cases writable with
    | true => cases hverdict
    | false => exact hverdict

theorem showStack_answers (m : Machine σ) :
    Answers m none (m.memory.stack.all Text.isWritable) () (showStack m) := by
  cases h : m.memory.stack.all Text.isWritable with
  | true =>
    obtain ⟨next, hshow, hprints⟩ := showStack_of_writable h
    rw [hshow]
    exact .of_prints hprints ()
  | false =>
    rw [showStack_of_unwritable h]
    exact ⟨⟨rfl, rfl, rfl⟩, rfl, rfl⟩

theorem forIn_say {ι : Type} {text : ι → String} (htext : ∀ i, (text i).toList.head? ≠ some 'E')
    (items : List ι) (m : Machine σ) :
    ∃ next, (forIn items PUnit.unit fun i _ => do
        Run.say (text i)
        pure (ForInStep.yield PUnit.unit) : Run σ PUnit) m = .ok () next ∧ m.Prints next := by
  induction items generalizing m with
  | nil => exact ⟨m, rfl, .refl m⟩
  | cons i items ih =>
    obtain ⟨next, hrest, hprints⟩ := ih (stateOf (Run.say (text i) m))
    rw [List.forIn_cons]
    exact ⟨next, hrest, (Prints.say _ (htext i) m).trans hprints⟩

theorem listWords_answers (m : Machine σ) : Answers m none true () (listWords m) := by
  have htext : ∀ group : Group, (group.category.name ++ ": " ++
      String.intercalate " " (group.items.map Prod.fst)).toList.head? ≠ some 'E' := by
    intro group
    rw [String.append_assoc, String.toList_append]
    cases group.category <;> exact fun h => by cases h
  obtain ⟨next, hwords, hprints⟩ := forIn_say htext m.groups m
  unfold listWords
  rw [bind_apply_ok (get_apply m), bind_apply_ok hwords]
  exact .of_prints hprints ()

theorem head?_usage (builtin : Builtin) (text : String) :
    (builtin.usage ++ text).toList.head? ≠ some 'E' := by
  rw [String.toList_append]
  cases builtin with
  | go direction => cases direction <;> exact fun h => by cases h
  | _ => exact fun h => by cases h

/-- No reference text looks like the line for a fault. -/
theorem head?_describe (hm : m.Unhosted) (name : String) :
    (m.describe name).toList.head? ≠ some 'E' := by
  unfold describe
  simp only
  split
  · simp only [String.append_assoc, String.toList_append]
    exact fun h => by cases h
  · rename_i operation hresolve
    obtain ⟨builtin, rfl⟩ := hm operation (mem_of_resolve hresolve)
    rw [String.append_assoc]
    exact head?_usage builtin _
  · split
    · rename_i operation hfind
      obtain ⟨builtin, -, rfl⟩ := List.mem_map.mp (List.mem_of_find?_eq_some hfind)
      rw [String.append_assoc]
      exact head?_usage builtin _
    · simp only [String.append_assoc, String.toList_append]
      exact fun h => by cases h

variable [World σ]

/-! ## Encounters -/

/-- The line that an input is read as; an interrupt is no line. -/
def line? (chomps : Bool) : Input → Option String
  | .line text => some (if chomps then chomp text else text)
  | .interrupt => none

/-- Whether the session ends with the input. -/
def ends (chomps : Bool) (input : Input) : Bool :=
  (line? chomps input).any fun line => Command.ofLine line = .bye

/-- The inputs that a session responds to: those before the first `bye`. -/
def heard (chomps : Bool) (inputs : List Input) : List Input :=
  inputs.takeWhile fun input => !ends chomps input

/-- The fault that a computation raises, if it raises one. -/
def faultOf {τ α : Type} : EStateM.Result Raised τ α → Option Fault
  | .error (.fault fault) _ => some fault
  | _ => none

/-- An input, with the machine that it finds. -/
structure Encounter (σ : Type) where
  input : Input
  machine : Machine σ

namespace Encounter

/-- The run of the input, if it is a program. -/
def run? (delay : Int) (chomps : Bool) (e : Encounter σ) :
    Option (EStateM.Result Raised (Machine σ) (List Int)) :=
  (line? chomps e.input).bind fun line =>
    match Command.ofLine line with
    | .program => some (runPaced delay line e.machine.memory.stack e.machine)
    | _ => none

/-- The fault of the input, if it is a program that fails. -/
def fault? (delay : Int) (chomps : Bool) (e : Encounter σ) : Option Fault :=
  (e.run? delay chomps).bind faultOf

/-- The stack that is shown for the input: where it is asked for, and after a program. -/
def shown? (delay : Int) (chomps : Bool) (e : Encounter σ) : Option (List Int) :=
  (line? chomps e.input).bind fun line =>
    match Command.ofLine line with
    | .showStack => some e.machine.memory.stack
    | .program => some (stateOf (runPaced delay line e.machine.memory.stack e.machine)).memory.stack
    | _ => none

/-- Whether the stack that is shown for the input, if there is one, can be written. -/
def showable (delay : Int) (chomps : Bool) (e : Encounter σ) : Bool :=
  (e.shown? delay chomps).all fun stack => stack.all Text.isWritable

end Encounter

/-- The inputs, each with the machine that it finds: the one that the response to the input before
it has left. -/
def encounters (delay : Int) (chomps : Bool) : Machine σ → List Input → List (Encounter σ)
  | _, [] => []
  | m, input :: inputs =>
    ⟨input, asked m⟩ ::
      encounters delay chomps (stateOf (respond delay chomps input (asked m))) inputs

/-- The machine that the responses to all inputs have left, after it has asked for another. -/
def attended (delay : Int) (chomps : Bool) : Machine σ → List Input → Machine σ
  | m, [] => asked m
  | m, input :: inputs =>
    attended delay chomps (stateOf (respond delay chomps input (asked m))) inputs

/-! ## The response to one input -/

theorem runLine_ok {delay : Int} {line : String} {stack : List Int} {last : Machine σ}
    (h : runPaced delay line m.memory.stack m = .ok stack last) :
    runLine delay line m = showStack last := by
  have hattempt : Run.attempt (runPaced delay line m.memory.stack) m = .ok (.ok stack) last := by
    rw [Run.attempt, h]
  unfold runLine
  rw [bind_apply_ok (get_apply m), bind_apply_ok hattempt]

theorem runLine_answers (hworld : RaisesOnly σ fun raised => raised.ending? ≠ none)
    (hcalm : Unalarming σ) (hm : m.Unhosted) {delay : Int} (hdelay : 0 ≤ delay) (line : String) :
    Answers m (faultOf (runPaced delay line m.memory.stack m))
      ((stateOf (runPaced delay line m.memory.stack m)).memory.stack.all Text.isWritable) ()
      (runLine delay line m) := by
  obtain ⟨last, hrun, hsame, herrors⟩ :=
    runPaced_cases hworld hcalm hm hdelay line m.memory.stack
  rw [outcome_eq] at hrun
  cases herror : last.error with
  | none =>
    rw [herror] at hrun
    rw [runLine_ok hrun, hrun]
    exact (showStack_answers last).after hsame herrors
  | some fault =>
    rw [herror] at hrun
    have hattempt : Run.attempt (runPaced delay line m.memory.stack) m =
        .ok (.error (.fault fault)) last := by
      rw [Run.attempt, hrun]
    have hsaid : SameSetup last (stateOf (Run.say ("Error: " ++ fault.message) last)) :=
      ⟨rfl, rfl, rfl⟩
    have hline : (stateOf (Run.say ("Error: " ++ fault.message) last)).memory.errors =
        fault.errorLine :: m.memory.errors := by
      rw [← herrors]
      exact List.filter_cons_of_pos fault.isErrorLine_errorLine
    unfold runLine
    rw [bind_apply_ok (get_apply m), bind_apply_ok hattempt, hrun]
    exact (showStack_answers (stateOf (Run.say ("Error: " ++ fault.message) last))).after
      (hsame.trans hsaid) hline

/-- The response to an input that does not end the session. -/
theorem respond_answers (hworld : RaisesOnly σ fun raised => raised.ending? ≠ none)
    (hcalm : Unalarming σ) {delay : Int} (hdelay : 0 ≤ delay) (chomps : Bool) {e : Encounter σ}
    (hm : e.machine.Unhosted) (hends : ends chomps e.input = false) :
    Answers e.machine (e.fault? delay chomps) (e.showable delay chomps) true
      (respond delay chomps e.input e.machine) := by
  obtain ⟨input, m⟩ := e
  cases input with
  | interrupt =>
    have hprints := Prints.say "\n(Ctrl+C) Type 'bye' to quit" (by decide) m
    exact .of_prints hprints true
  | line text =>
    unfold Encounter.fault? Encounter.showable Encounter.run? Encounter.shown?
    unfold ends at hends
    simp only [line?, Option.bind_some, Option.any_some, decide_eq_false_iff_not, respond]
      at hends ⊢
    generalize (if chomps = true then chomp text else text) = line at hends ⊢
    unfold respondTo
    cases hcommand : Command.ofLine line with
    | bye => exact absurd hcommand hends
    | abort =>
      rw [Option.bind_none, Option.all_none]
      let cleared : Machine σ := { m with memory := { m.memory with stack := [] } }
      have hprints := Prints.say "Stack cleared" (by decide) cleared
      exact (Answers.of_prints hprints true).after ⟨rfl, rfl, rfl⟩ rfl
    | showStack =>
      rw [Option.bind_none, Option.all_some]
      exact (showStack_answers m).bind_pure true
    | listWords =>
      rw [Option.bind_none, Option.all_none]
      exact (listWords_answers m).bind_pure true
    | see name =>
      rw [Option.bind_none, Option.all_none]
      exact .of_prints (Prints.say _ (head?_describe hm name) m) true
    | program =>
      rw [Option.bind_some, Option.all_some]
      exact (runLine_answers hworld hcalm hm hdelay line).bind_pure true

theorem respond_bye (delay : Int) {chomps : Bool} {input : Input} (hends : ends chomps input = true)
    (m : Machine σ) : respond delay chomps input m = .ok false m := by
  cases input with
  | interrupt => cases hends
  | line text =>
    unfold ends line? at hends
    rw [Option.any_some, decide_eq_true_eq] at hends
    simp only [respond]
    unfold respondTo
    rw [hends]
    rfl

/-! ## The responses to all inputs -/

omit [World σ] in
theorem ends_of_mem_heard {chomps : Bool} {inputs : List Input} {input : Input}
    (h : input ∈ heard chomps inputs) : ends chomps input = false := by
  have hgoes : (!ends chomps input) = true := List.all_eq_true.mp List.all_takeWhile input h
  rwa [Bool.not_eq_true'] at hgoes

section

variable (hworld : RaisesOnly σ fun raised => raised.ending? ≠ none) (hcalm : Unalarming σ)
  {delay : Int} (hdelay : 0 ≤ delay) (chomps : Bool)

include hworld hcalm hdelay

theorem unhosted_of_mem_encounters (inputs : List Input)
    (hinputs : ∀ input ∈ inputs, ends chomps input = false) (hm : m.Unhosted) :
    ∀ e ∈ encounters delay chomps m inputs, e.machine.Unhosted := by
  induction inputs generalizing m with
  | nil => exact fun _ he => absurd he List.not_mem_nil
  | cons input inputs ih =>
    have hasked : (asked m).Unhosted := (asked_prints m).sameSetup.unhosted hm
    have hanswers := respond_answers hworld hcalm hdelay chomps (e := ⟨input, asked m⟩) hasked
      (hinputs input List.mem_cons_self)
    intro e he
    rcases List.mem_cons.mp he with rfl | hrest
    · exact hasked
    · exact ih (fun other hother => hinputs other (List.mem_cons_of_mem _ hother))
        (hanswers.setup.unhosted hasked) e hrest

/-- The responses to all inputs. The induction is on the inputs: the response to the first one
decides whether there is a second. -/
theorem converse_met (inputs : List Input) (hm : m.Unhosted) :
    if (encounters delay chomps m (heard chomps inputs)).all (Encounter.showable delay chomps) then
      converse delay chomps inputs m = .ok () (attended delay chomps m (heard chomps inputs)) ∧
        (attended delay chomps m (heard chomps inputs)).memory.errors =
          (((encounters delay chomps m (heard chomps inputs)).filterMap
            (Encounter.fault? delay chomps)).map Fault.errorLine).reverse ++ m.memory.errors
    else raisedOf (converse delay chomps inputs m) = some (.failure (.tooManyDigits none)) := by
  induction inputs generalizing m with
  | nil => exact ⟨rfl, (asked_prints m).errors⟩
  | cons input inputs ih =>
    have hask : ask m = .ok () (asked m) := rfl
    have hasked : (asked m).Unhosted := (asked_prints m).sameSetup.unhosted hm
    unfold converse
    rw [bind_apply_ok hask]
    cases hends : ends chomps input with
    | true =>
      have hheard : heard chomps (input :: inputs) = [] := by
        unfold heard
        rw [List.takeWhile_cons_of_neg (by simp [hends])]
      rw [bind_apply_ok (respond_bye delay hends _), hheard]
      exact ⟨rfl, (asked_prints m).errors⟩
    | false =>
      have hheard : heard chomps (input :: inputs) = input :: heard chomps inputs := by
        unfold heard
        rw [List.takeWhile_cons_of_pos (by simp [hends])]
      obtain ⟨hsetup, herrors, hverdict⟩ :=
        respond_answers hworld hcalm hdelay chomps (e := ⟨input, asked m⟩) hasked hends
      have hrest := ih (hsetup.unhosted hasked)
      rw [hheard, encounters, attended, List.all_cons, List.filterMap_cons]
      cases hshow : Encounter.showable delay chomps ⟨input, asked m⟩ with
      | false =>
        rw [hshow, if_neg Bool.false_ne_true] at hverdict
        rw [bind_apply_error (eq_error_of_raisedOf hverdict)]
        exact rfl
      | true =>
        rw [hshow, if_pos rfl] at hverdict
        rw [bind_apply_ok (eq_ok_of_valueOf hverdict), Bool.true_and, if_pos rfl]
        rw [herrors, (asked_prints m).errors] at hrest
        split
        · rename_i hall
          rw [if_pos hall] at hrest
          refine ⟨hrest.1, hrest.2.trans ?_⟩
          cases Encounter.fault? delay chomps ⟨input, asked m⟩ with
          | none => rfl
          | some fault => simp
        · rename_i hall
          rw [if_neg hall] at hrest
          exact hrest

theorem Encounter.run?_cases {e : Encounter σ} (hm : e.machine.Unhosted)
    {result : EStateM.Result Raised (Machine σ) (List Int)}
    (h : e.run? delay chomps = some result) :
    (∃ stack last, result = .ok stack last) ∨
      ∃ fault last, result = .error (.fault fault) last := by
  unfold run? at h
  obtain ⟨line, -, hline⟩ := Option.bind_eq_some_iff.mp h
  split at hline
  · obtain ⟨last, hrun, -⟩ := runPaced_cases hworld hcalm hm hdelay line e.machine.memory.stack
    cases hline
    rw [hrun, outcome_eq]
    cases last.error with
    | none => exact Or.inl ⟨_, last, rfl⟩
    | some fault => exact Or.inr ⟨fault, last, rfl⟩
  · cases hline

end

/-- **What a session prints, and what ends it.** Let all that the world raises end a run, let it
print nothing that looks like the line for a fault, and let the delay not be negative. The inputs
before the first `bye` are responded to one after the other. Each program among them comes to its
end, with a stack or with a fault, and the lines printed for faults are those of the programs that
fail, in their order. A fault does not end the session: it goes on to its end unless it has to show
a stack with a number of too many digits, and then that failure is all that it raises. -/
theorem session_transcript (hworld : RaisesOnly σ fun raised => raised.ending? ≠ none)
    (hcalm : Unalarming σ) (hm : m.Unhosted) {delay : Int} (hdelay : 0 ≤ delay) (chomps : Bool)
    (inputs : List Input) :
    let met := encounters delay chomps (greeted m) (heard chomps inputs)
    (∀ e ∈ met, ∀ result, e.run? delay chomps = some result →
      (∃ stack last, result = .ok stack last) ∨ ∃ fault last, result = .error (.fault fault) last) ∧
    ((∃ last, session delay chomps inputs m = .ok () last) ↔
      ∀ e ∈ met, e.showable delay chomps = true) ∧
    (∀ raised last, session delay chomps inputs m = .error raised last →
      raised = .failure (.tooManyDigits none)) ∧
    ∀ last, session delay chomps inputs m = .ok () last →
      last = attended delay chomps (greeted m) (heard chomps inputs) ∧
      last.memory.errors =
        ((met.filterMap (Encounter.fault? delay chomps)).map Fault.errorLine).reverse ++
          m.memory.errors := by
  have hgreet : greet m = .ok () (greeted m) := rfl
  have hgreeted : (greeted m).Unhosted := (greeted_prints m).sameSetup.unhosted hm
  have hmet := converse_met hworld hcalm hdelay chomps inputs hgreeted
  have hunhosted := unhosted_of_mem_encounters hworld hcalm hdelay chomps (heard chomps inputs)
    (fun _ hinput => ends_of_mem_heard hinput) hgreeted
  rw [(greeted_prints m).errors] at hmet
  unfold session
  rw [bind_apply_ok hgreet]
  generalize attended delay chomps (greeted m) (heard chomps inputs) = final at hmet
  generalize encounters delay chomps (greeted m) (heard chomps inputs) = met at hmet hunhosted
  refine ⟨fun e he _ => e.run?_cases hworld hcalm hdelay chomps (hunhosted e he), ?_⟩
  rw [← List.all_eq_true]
  cases hall : met.all (Encounter.showable delay chomps) with
  | true =>
    rw [if_pos hall] at hmet
    obtain ⟨hconverse, herrors⟩ := hmet
    rw [hconverse]
    refine ⟨⟨fun _ => rfl, fun _ => ⟨final, rfl⟩⟩, fun raised last h => ?_, fun last h => ?_⟩
    · cases h
    · cases h
      exact ⟨rfl, herrors⟩
  | false =>
    rw [hall, if_neg Bool.false_ne_true] at hmet
    rw [eq_error_of_raisedOf hmet]
    refine ⟨⟨fun ⟨last, h⟩ => ?_, fun h => ?_⟩, fun raised last h => ?_, fun last h => ?_⟩
    · cases h
    · cases h
    · cases h
      rfl
    · cases h

end Prompt

theorem unalarming_void : Unalarming Void := by
  refine ⟨?_, ?_, ?_, ?_, ?_⟩
  · exact fun _ _ _ h => absurd h List.not_mem_nil
  · exact fun _ _ _ h => absurd h List.not_mem_nil
  · exact fun _ _ h => absurd h List.not_mem_nil
  · exact fun _ _ _ h => absurd h List.not_mem_nil
  · exact fun _ _ _ h => absurd h List.not_mem_nil

theorem Plane.isErrorLine_moveLog {plane : Plane} {direction : Direction} {event : Event}
    (h : event ∈ plane.moveLog direction) : event.isErrorLine = false := by
  unfold moveLog at h
  simp only at h
  split at h
  · rcases List.mem_cons.mp h with rfl | h
    · rfl
    · rw [List.mem_singleton.mp h]
      rfl
  · rw [List.mem_singleton.mp h]
    rfl

theorem unalarming_plane : Unalarming Plane := by
  refine ⟨?_, ?_, ?_, ?_, ?_⟩
  · intro direction plane event hevent
    change event ∈ (Plane.move direction plane).events at hevent
    unfold Plane.move at hevent
    simp only at hevent
    split at hevent
    · split at hevent
      · rename_i text htext
        rcases List.mem_append.mp hevent with hlog | hline
        · exact Plane.isErrorLine_moveLog hlog
        · -- The line of a move starts with its verb.
          obtain ⟨position, -, rfl⟩ := Option.map_eq_some_iff.mp htext
          rw [List.mem_singleton.mp hline]
          apply Event.isErrorLine_of_head?
          simp only [String.append_assoc, String.toList_append]
          exact fun h => by cases h
      · exact Plane.isErrorLine_moveLog hevent
    · exact Plane.isErrorLine_moveLog hevent
  · exact fun _ _ _ h => absurd h List.not_mem_nil
  · exact fun _ _ h => absurd h List.not_mem_nil
  · exact fun _ _ _ h => absurd h List.not_mem_nil
  · exact fun _ _ _ h => absurd h List.not_mem_nil

theorem raisesOnly_ending_plane : RaisesOnly Plane fun raised => raised.ending? ≠ none := by
  refine ⟨?_, ?_, ?_, ?_, ?_⟩
  · intro direction plane raised hraised
    change (Plane.move direction plane).result = .error raised at hraised
    unfold Plane.move at hraised
    simp only at hraised
    split at hraised
    · split at hraised
      · cases hraised
      · cases hraised
        exact Option.some_ne_none _
    · cases hraised
  · exact fun _ _ _ h => by cases h
  · exact fun _ _ h => by cases h
  · exact fun _ _ _ h => by cases h
  · exact fun _ _ _ h => by cases h

/-- A session with two programs that fail, an interrupt, and a line after the `bye`; and one without
a grid that ends with its inputs. -/
theorem Prompt.session_transcript_faults :
    (∃ last,
      session 250 true
        [.line "PUSH 2 UP\n", .line "ADD\n", .interrupt, .line "PUSH 12\n", .line " Bye \n",
          .line "POP"]
        (Machine.plain ({ echo := true } : Plane) 9) = .ok () last ∧
      last.memory.errors =
        [(Fault.outOfRange 12).errorLine, (Fault.stackUnderflow "ADD" 2 1).errorLine]) ∧
    ∃ last,
      session 0 false [.line "see POP", .line "UP POP"] (Machine.plain ({} : Void) 9) =
        .ok () last ∧
      last.memory.errors = [(Fault.stackUnderflow "POP" 1 0).errorLine] := by
  constructor
  · obtain ⟨-, hends, -, hlast⟩ := session_transcript raisesOnly_ending_plane unalarming_plane
      (m := Machine.plain ({ echo := true } : Plane) 9) (Machine.catalogue_unhosted rfl)
      (show (0 : Int) ≤ 250 by decide) true
      [.line "PUSH 2 UP\n", .line "ADD\n", .interrupt, .line "PUSH 12\n", .line " Bye \n",
        .line "POP"]
    obtain ⟨last, hsession⟩ := hends.mpr (by
      rw [← List.all_eq_true]
      decide +kernel)
    refine ⟨last, hsession, (hlast last hsession).2.trans ?_⟩
    decide +kernel
  · obtain ⟨-, hends, -, hlast⟩ := session_transcript (Machine.raisesOnly_void _) unalarming_void
      (m := Machine.plain ({} : Void) 9) (Machine.catalogue_unhosted rfl) (Int.le_refl 0) false
      [.line "see POP", .line "UP POP"]
    obtain ⟨last, hsession⟩ := hends.mpr (by
      rw [← List.all_eq_true]
      decide +kernel)
    refine ⟨last, hsession, (hlast last hsession).2.trans ?_⟩
    decide +kernel

/-- What a program leaves on the stack may end the session: nine squared thirteen times has more
than seven thousand digits, and the stack that holds it cannot be shown. -/
theorem Prompt.session_escapes :
    raisedOf (session 0 false
        [.line "PUSH 9 DEF Q DUP MUL END Q Q Q Q Q Q Q Q Q Q Q Q Q"]
        (Machine.plain ({ echo := true } : Plane) 1000000)) =
      some (.failure (.tooManyDigits none)) := by
  decide +kernel

end StackRover
