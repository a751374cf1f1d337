import StackRover.Machine.Drive
import StackRover.Machine.Setup
import StackRover.Proofs.Effects

/-!
# Steps without host operations

In a machine without host operations a term stands for the body of a definition or for a built-in
operation, and a step is the effect of that on the memory, followed by the notifications, the count
and the check of the limit. This module says once what a step does; all facts about steps and runs
are derived from it.

* `step_final`, `step_end`, `step_term`: the step of a run that is over, of a run without pending
  terms, and of every other run.
* `conclude_quiet`: the count and the check in a world that takes no notice of notifications.
* `create_unhosted`: a machine set up without operations of the host has none.
-/

namespace StackRover

/-- What a term stands for in a machine without host operations. -/
inductive Meaning where
  /-- The terms that a definition binds it to. -/
  | body (terms : List String)
  /-- A built-in operation. -/
  | builtin (builtin : Builtin)

namespace Meaning

/-- The group of the entry. -/
def category : Meaning → Category
  | body _ => .custom
  | builtin b => b.category

/-- How many values the term needs on the stack. -/
def minDepth : Meaning → Nat
  | body _ => 0
  | builtin b => b.minDepth

/-- What the term does to the memory. -/
def task {σ : Type} [World σ] : Meaning → Task σ Unit
  | body terms => Task.splice terms
  | builtin b => b.perform

/-- The entry that a name has for the meaning. -/
def entry (name : String) : Meaning → Entry
  | body terms => .definition ⟨name, terms⟩
  | builtin b => .operation b.operation

end Meaning

/-- What a step reports after a term of the group. -/
def Category.progress (category : Category) : Progress :=
  if category = .action then .paused else .ongoing

/-- The phase of a run after a term of the group. -/
def Category.phase (category : Category) : Phase :=
  if category = .action then .suspended else .running

/-- The fault that ends a run in which something is raised. An interrupt ends no run. -/
def Raised.ending? : Raised → Option Fault
  | .fault f => some f
  | .failure f => some (.hostFailure f true)
  | .interrupt _ | .exhausted => none

theorem Raised.ending?_ofFault (fault : Fault) : (Raised.ofFault fault).ending? ≠ none := by
  unfold Raised.ofFault
  split <;> simp [Raised.ending?]

/-- The memory after messages were logged, the latest first; nothing is logged without the debug
flag. -/
def Memory.noted {σ : Type} (debug : Bool) (messages : List Message) (m : Memory σ) : Memory σ :=
  { m with journal := if debug then messages.map Event.log ++ m.journal else m.journal }

/-! ## Names -/

theorem Builtin.name_of_ofName? {name : String} {builtin : Builtin}
    (h : ofName? name = some builtin) : builtin.name = name := by
  simpa using List.find?_some h

theorem Lexicon.mem_of_mem_place {α : Type} [Named α] {entry other : α} {entries : List α}
    (h : other ∈ Lexicon.place entry entries) : other = entry ∨ other ∈ entries := by
  induction entries with
  | nil => exact Or.inl (List.mem_singleton.mp h)
  | cons first rest ih =>
    unfold Lexicon.place at h
    split at h
    · rcases List.mem_cons.mp h with heq | hrest
      · exact Or.inl heq
      · exact Or.inr (List.mem_cons_of_mem _ hrest)
    · rcases List.mem_cons.mp h with heq | hrest
      · exact Or.inr (heq ▸ List.mem_cons_self)
      · rcases ih hrest with heq | hmem
        · exact Or.inl heq
        · exact Or.inr (List.mem_cons_of_mem _ hmem)

theorem Lexicon.mem_of_mem_foldl_insert {α : Type} [Named α] {entries : List α}
    {lexicon : Lexicon α} {entry : α} (h : entry ∈ (entries.foldl Lexicon.insert lexicon).entries) :
    entry ∈ entries ∨ entry ∈ lexicon.entries := by
  induction entries generalizing lexicon with
  | nil => exact Or.inr h
  | cons first rest ih =>
    rcases ih h with hrest | hinsert
    · exact Or.inl (List.mem_cons_of_mem _ hrest)
    · rcases Lexicon.mem_of_mem_place hinsert with heq | hmem
      · exact Or.inl (heq ▸ List.mem_cons_self)
      · exact Or.inr hmem

namespace Machine

variable {σ : Type}

/-- All active operations are built in. -/
def Unhosted (m : Machine σ) : Prop :=
  ∀ operation ∈ m.operations.entries, ∃ builtin : Builtin, operation = builtin.operation

/-- What a term stands for; definitions come first. -/
def meaning? (m : Machine σ) (name : String) : Option Meaning :=
  match m.memory.definitions.find? name with
  | some definition => some (.body definition.body)
  | none =>
    if m.operations.contains name then (Builtin.ofName? name).map .builtin else none

/-- The memory once the next term was looked at. -/
def looked (m : Machine σ) : Memory σ :=
  m.memory.noted m.debug [.pending m.memory.pending, .stack m.memory.stack]

/-- The memory once the term `name` was taken from the front of the terms `rest`. -/
def taken (m : Machine σ) (name : String) (rest : List String) : Memory σ :=
  { m.memory with pending := rest }.noted m.debug
    [.calling name, .pending m.memory.pending, .stack m.memory.stack]

/-- The effect of the term `name` before the terms `rest`: the memory that it leaves, and the group
of the term or what it raises. -/
def effectOf [World σ] (m : Machine σ) (name : String) (rest : List String) :
    EStateM.Result Raised (Memory σ) Category :=
  match m.meaning? name with
  | none => .error (Raised.ofFault (.unknownInstruction name)) m.looked
  | some meaning =>
    if meaning.minDepth ≤ m.memory.stack.length then
      match meaning.task (m.taken name rest) with
      | .ok _ memory => .ok meaning.category memory
      | .error raised memory => .error raised memory
    else
      .error (Raised.ofFault (.stackUnderflow name meaning.minDepth m.memory.stack.length)) m.looked

/-- The run once something was raised: it fails, unless it was only interrupted. -/
def settle (raised : Raised) (m : Machine σ) : EStateM.Result Raised (Machine σ) Progress :=
  match raised.ending? with
  | some fault =>
    .ok .failed
      { m with
        memory :=
          { m.memory with journal := .log (.failed m.steps fault) :: m.memory.journal }
        error := some fault
        phase := .failed }
  | none => .error raised m

/-! ## What terms stand for -/

theorem find?_unhosted {m : Machine σ} (hm : m.Unhosted) (name : String) :
    m.operations.find? name =
      if m.operations.contains name then (Builtin.ofName? name).map Builtin.operation
      else none := by
  unfold Lexicon.contains
  cases hfind : m.operations.find? name with
  | none => rfl
  | some operation =>
    obtain ⟨builtin, rfl⟩ := hm operation (List.mem_of_find?_eq_some hfind)
    have hname : builtin.name = name := Lexicon.name_of_find? hfind
    rw [← hname]
    simp

theorem resolve_unhosted {m : Machine σ} (hm : m.Unhosted) (name : String) :
    m.resolve name = (m.meaning? name).map (Meaning.entry name) := by
  unfold resolve meaning? lookup
  cases hfind : m.memory.definitions.find? name with
  | some definition =>
    have hname : definition.name = name := Lexicon.name_of_find? hfind
    simp [Meaning.entry, ← hname]
  | none =>
    simp only
    rw [find?_unhosted hm]
    split
    · cases Builtin.ofName? name <;> rfl
    · rfl

theorem catalogue_unhosted {m : Machine σ} (h : m.operations = Builtin.catalogue) :
    m.Unhosted := by
  intro operation hmem
  rw [h] at hmem
  obtain ⟨builtin, -, rfl⟩ := List.mem_map.mp hmem
  exact ⟨builtin, rfl⟩

/-! ## Machines that are set up without operations of the host -/

/-- Only built-in operations are activated. -/
theorem activate_builtin {available : Option (List String)} {operations : Lexicon Operation}
    (h : activate available = .ok operations) {operation : Operation}
    (hmem : operation ∈ operations.entries) :
    ∃ builtin : Builtin, operation = builtin.operation := by
  cases available with
  | none =>
    cases h
    obtain ⟨builtin, -, rfl⟩ := List.mem_map.mp hmem
    exact ⟨builtin, rfl⟩
  | some names =>
    unfold activate at h
    simp only at h
    split at h
    · cases h
      rcases Lexicon.mem_of_mem_foldl_insert hmem with hnames | hempty
      · obtain ⟨builtin, -, rfl⟩ := List.mem_map.mp hnames
        exact ⟨builtin, rfl⟩
      · cases hempty
    · cases h

/-- The limit of steps that the options set: their own, or that of the settings. -/
def optionsLimit (options : Options) : Except Failure Int :=
  match options.maxSteps with
  | some limit => .ok limit
  | none => options.settings.stepLimit

/-- What a machine is set up as. -/
theorem create_eq {world : σ} {options : Options} {m : Machine σ}
    (h : create world options = .ok m) :
    ∃ operations maxSteps, activate options.available = .ok operations ∧
      optionsLimit options = .ok maxSteps ∧
      m =
        { memory := { dice := options.dice, world := world }
          operations := options.additional.foldl Lexicon.insert operations
          maxSteps := maxSteps
          debug := options.debug.getD options.settings.debugging } := by
  have hcreate : create world options = (do
      let maxSteps ← optionsLimit options
      let operations ← activate options.available
      return {
        memory := { dice := options.dice, world := world }
        operations := options.additional.foldl Lexicon.insert operations
        maxSteps := maxSteps
        debug := options.debug.getD options.settings.debugging }) := by
    unfold create optionsLimit
    cases options.maxSteps <;> rfl
  rw [hcreate] at h
  cases hlimit : optionsLimit options with
  | error failure =>
    rw [hlimit] at h
    cases h
  | ok maxSteps =>
    cases hactivate : activate options.available with
    | error failure =>
      rw [hlimit, hactivate] at h
      cases h
    | ok operations =>
      rw [hlimit, hactivate] at h
      cases h
      exact ⟨operations, maxSteps, rfl, rfl, rfl⟩

/-- A machine set up without operations of the host has none, whatever is activated. -/
theorem create_unhosted {world : σ} {options : Options} {m : Machine σ}
    (h : create world options = .ok m) (hadditional : options.additional = []) : m.Unhosted := by
  obtain ⟨operations, maxSteps, hactivate, -, rfl⟩ := create_eq h
  intro operation hmem
  rw [hadditional] at hmem
  exact activate_builtin hactivate hmem

/-- The machine with all built-in operations, the given limit and nothing loaded. -/
def plain (world : σ) (maxSteps : Int) : Machine σ where
  memory := { dice := .cycling #[], world := world }
  operations := Builtin.catalogue
  maxSteps := maxSteps
  debug := false

example (world : σ) (maxSteps : Int) :
    create world { maxSteps := some maxSteps, debug := some false } =
      .ok (plain world maxSteps) := rfl

/-! ## What a term does -/

theorem entry_perform [World σ] (again : Run σ Progress) (name : String) (meaning : Meaning) :
    (meaning.entry name).perform again = Run.within meaning.task := by
  cases meaning <;> rfl

theorem entry_minDepth (name : String) (meaning : Meaning) :
    (meaning.entry name).minDepth = meaning.minDepth := by
  cases meaning <;> rfl

theorem entry_category (name : String) (meaning : Meaning) :
    (meaning.entry name).category = meaning.category := by
  cases meaning <;> rfl

theorem trace_apply (message : Message) (m : Machine σ) :
    Run.trace message m = .ok () { m with memory := m.memory.noted m.debug [message] } := by
  obtain ⟨memory, operations, maxSteps, debug, steps, error, phase⟩ := m
  cases debug <;> rfl

theorem noted_looked (m : Machine σ) :
    (m.memory.noted m.debug [.stack m.memory.stack]).noted m.debug [.pending m.memory.pending] =
      m.looked := by
  unfold looked Memory.noted
  cases m.debug <;> rfl

theorem noted_taken (m : Machine σ) (name : String) (rest : List String) :
    { m.looked with pending := rest }.noted m.debug [.calling name] = m.taken name rest := by
  unfold looked taken Memory.noted
  cases m.debug <;> rfl

/-- What a term does in a machine without host operations. -/
theorem dispatch_unhosted [World σ] {m : Machine σ} (hm : m.Unhosted) (again : Run σ Progress)
    (name : String) (rest : List String) :
    dispatch again name rest m =
      match m.effectOf name rest with
      | .ok category memory =>
        match conclude { m with memory := memory } with
        | .ok _ after => .ok category after
        | .error raised after => .error raised after
      | .error raised memory => .error raised { m with memory := memory } := by
  unfold dispatch effectOf
  simp only [bind_apply, get_apply, trace_apply, resolve_unhosted hm, noted_looked]
  cases m.meaning? name with
  | none => rfl
  | some meaning =>
    simp only [Option.map_some, entry_minDepth, entry_perform, entry_category]
    by_cases hdepth : meaning.minDepth ≤ m.memory.stack.length
    · have hholds : holds meaning.minDepth m.memory.stack = true :=
        (holds_iff _ _).mpr (Int.ofNat_le.mpr hdepth)
      simp only [hdepth, hholds, if_true, bind_apply, modify_apply, trace_apply, noted_taken,
        Run.within]
      cases meaning.task (m.taken name rest) with
      | ok _ memory =>
        simp only
        cases conclude { m with memory := memory } <;> rfl
      | error raised memory => rfl
    · have hholds : ¬ holds meaning.minDepth m.memory.stack = true := fun h =>
        hdepth (Int.ofNat_le.mp ((holds_iff _ _).mp h))
      simp only [hdepth, hholds, if_false]
      rfl

/-! ## The conclusion of a step -/

/-- Notifications and the count change the world, the journal and the number of steps only. -/
structure Notified (m after : Machine σ) : Prop where
  stack : after.memory.stack = m.memory.stack
  pending : after.memory.pending = m.memory.pending
  definitions : after.memory.definitions = m.memory.definitions
  dice : after.memory.dice = m.memory.dice
  operations : after.operations = m.operations
  maxSteps : after.maxSteps = m.maxSteps
  debug : after.debug = m.debug
  error : after.error = m.error
  phase : after.phase = m.phase

theorem Notified.trans {a b c : Machine σ} (h : Notified a b) (h' : Notified b c) :
    Notified a c where
  stack := h'.stack.trans h.stack
  pending := h'.pending.trans h.pending
  definitions := h'.definitions.trans h.definitions
  dice := h'.dice.trans h.dice
  operations := h'.operations.trans h.operations
  maxSteps := h'.maxSteps.trans h.maxSteps
  debug := h'.debug.trans h.debug
  error := h'.error.trans h.error
  phase := h'.phase.trans h.phase

theorem within_ask_notified (request : σ → Reply σ Unit) (m : Machine σ) :
    Notified m (stateOf (Run.within (Task.ask request) m)) := by
  simp only [Run.within, Task.ask]
  cases (request m.memory.world).result <;> exact ⟨rfl, rfl, rfl, rfl, rfl, rfl, rfl, rfl, rfl⟩

theorem conclude_notified [World σ] (m : Machine σ) : Notified m (stateOf (conclude m)) := by
  have hstack := within_ask_notified (World.stackChanged m.memory.stack) m
  unfold conclude
  simp only [bind_apply, get_apply, modify_apply]
  cases hs : Run.within (Task.ask (World.stackChanged m.memory.stack)) m with
  | error raised after =>
    rw [hs] at hstack
    exact hstack
  | ok _ after =>
    rw [hs] at hstack
    have hcount : Notified m { after with steps := after.steps + 1 } := by
      obtain ⟨h1, h2, h3, h4, h5, h6, h7, h8, h9⟩ := hstack
      exact ⟨h1, h2, h3, h4, h5, h6, h7, h8, h9⟩
    have hstep := within_ask_notified (World.stepped (after.steps + 1))
      { after with steps := after.steps + 1 }
    simp only
    cases ht : Run.within (Task.ask (World.stepped (after.steps + 1)))
        { after with steps := after.steps + 1 } with
    | error raised last =>
      rw [ht] at hstep
      exact hcount.trans hstep
    | ok _ last =>
      rw [ht] at hstep
      simp only
      split <;> exact hcount.trans hstep

theorem within_ask_pure (m : Machine σ) {request : σ → Reply σ Unit}
    (h : request m.memory.world = Reply.pure () m.memory.world) :
    Run.within (Task.ask request) m = .ok () m := by
  unfold Run.within Task.ask
  rw [h]
  rfl

/-- The count and the check in a world that takes no notice of notifications. -/
theorem conclude_quiet [World σ] (hq : QuietHooks σ) (m : Machine σ) :
    conclude m =
      if m.maxSteps < ((m.steps + 1 : Nat) : Int) then
        .error (Raised.ofFault (.programTooLong m.maxSteps)) { m with steps := m.steps + 1 }
      else .ok () { m with steps := m.steps + 1 } := by
  unfold conclude
  simp only [bind_apply, get_apply, modify_apply,
    within_ask_pure m (hq.stackChanged m.memory.stack m.memory.world),
    within_ask_pure { m with steps := m.steps + 1 } (hq.stepped (m.steps + 1) m.memory.world)]
  split <;> rfl

/-! ## The step -/

theorem failWith_running {m : Machine σ} (h : m.phase = .running) (fault : Fault) :
    failWith fault m = .ok .failed
      { m with
        memory :=
          { m.memory with journal := .log (.failed m.steps fault) :: m.memory.journal }
        error := some fault
        phase := .failed } := by
  unfold failWith
  simp only [bind_apply, modify_apply, Run.fire, h, Phase.next?]
  rfl

theorem executeNext_cons [World σ] {m : Machine σ} (hm : m.Unhosted) (hphase : m.phase = .running)
    (again : Run σ Progress) {name : String} {rest : List String}
    (hpending : m.memory.pending = name :: rest) :
    executeNext again m =
      match m.effectOf name rest with
      | .ok category memory =>
        match conclude { m with memory := memory } with
        | .ok _ after => .ok category.progress { after with phase := category.phase }
        | .error raised after => settle raised after
      | .error raised memory => settle raised { m with memory := memory } := by
  unfold executeNext
  simp only [bind_apply, get_apply, hpending, Run.attempt, dispatch_unhosted hm]
  cases m.effectOf name rest with
  | ok category memory =>
    have hrunning : (stateOf (conclude { m with memory := memory })).phase = .running :=
      (conclude_notified { m with memory := memory }).phase.trans hphase
    simp only
    cases hc : conclude { m with memory := memory } with
    | ok _ after =>
      rw [hc, stateOf_ok] at hrunning
      simp only [Category.progress, Category.phase]
      split
      · simp only [bind_apply, Run.fire, hrunning, Phase.next?, pure_apply]
      · rw [← hrunning]
        rfl
    | error raised after =>
      rw [hc, stateOf_error] at hrunning
      cases raised with
      | fault f => exact failWith_running hrunning f
      | failure f => exact failWith_running hrunning (.hostFailure f true)
      | interrupt text => rfl
      | exhausted => rfl
  | error raised memory =>
    have hrunning : { m with memory := memory }.phase = .running := hphase
    cases raised with
    | fault f => exact failWith_running hrunning f
    | failure f => exact failWith_running hrunning (.hostFailure f true)
    | interrupt text => rfl
    | exhausted => rfl

/-! What a step does before it comes to a term does not depend on the step that host scripts may
take. -/

theorem stepWith_final [World σ] (again : Run σ Progress) {m : Machine σ}
    (h : m.phase.isFinal = true) :
    stepWith again m = .ok (if m.phase = .completed then .finished else .failed) m := by
  rw [stepWith]
  simp only [bind_apply, get_apply]
  cases hphase : m.phase with
  | running | suspended => simp [hphase, Phase.isFinal] at h
  | completed | failed => rfl

theorem stepWith_live [World σ] (again : Run σ Progress) {m : Machine σ}
    (h : m.phase.isFinal = false) :
    stepWith again m = executeNext again { m with phase := .running } := by
  rw [stepWith]
  simp only [bind_apply, get_apply]
  cases hphase : m.phase with
  | running =>
    have hrunning : { m with phase := .running } = m := by rw [← hphase]
    rw [hrunning]
  | suspended => simp only [bind_apply, Run.fire, hphase, Phase.next?]
  | completed | failed => simp [hphase, Phase.isFinal] at h

theorem stepWith_end [World σ] (again : Run σ Progress) {m : Machine σ}
    (hlive : m.phase.isFinal = false) (hpending : m.memory.pending = []) :
    stepWith again m = .ok .finished
      { m with
        memory := { m.memory with journal := .log (.completed m.steps) :: m.memory.journal }
        phase := .completed } := by
  rw [stepWith_live again hlive]
  obtain ⟨⟨stack, pending, definitions, dice, world, journal⟩, operations, maxSteps, debug, steps,
    error, phase⟩ := m
  cases hpending
  rfl

theorem step_eq_stepWith [World σ] :
    (step : Run σ Progress) = stepWith (stepAt (nestingLimit - 1)) := rfl

/-- A run that is over stays as it is. -/
theorem step_final [World σ] {m : Machine σ} (h : m.phase.isFinal = true) :
    step m = .ok (if m.phase = .completed then .finished else .failed) m := by
  rw [step_eq_stepWith, stepWith_final _ h]

/-- A run without pending terms completes. -/
theorem step_end [World σ] {m : Machine σ} (hlive : m.phase.isFinal = false)
    (hpending : m.memory.pending = []) :
    step m = .ok .finished
      { m with
        memory := { m.memory with journal := .log (.completed m.steps) :: m.memory.journal }
        phase := .completed } := by
  rw [step_eq_stepWith, stepWith_end _ hlive hpending]

/-- The step of a run that has a term to execute. -/
theorem step_term [World σ] {m : Machine σ} (hm : m.Unhosted) (hlive : m.phase.isFinal = false)
    {name : String} {rest : List String} (hpending : m.memory.pending = name :: rest) :
    step m =
      match m.effectOf name rest with
      | .ok category memory =>
        match conclude { m with memory := memory, phase := .running } with
        | .ok _ after => .ok category.progress { after with phase := category.phase }
        | .error raised after => settle raised after
      | .error raised memory => settle raised { m with memory := memory, phase := .running } := by
  rw [step_eq_stepWith, stepWith_live _ hlive]
  exact executeNext_cons (m := { m with phase := .running }) hm rfl _ hpending

end Machine

end StackRover
