import StackRover.Proofs.Invariants
import StackRover.Proofs.StackFrame
import StackRover.World.Void

/-!
# Machines with a choice of built-in operations

A machine can be set up with a few of the built-in operations only. As long as a program names no
others, that makes no difference; the first other name ends the run before the term has done
anything. Definitions cannot bring back what was left out: their bodies are terms, and each of these
is looked up again.

* `step_withOperations`: a step depends on the operations only through what its term stands for.
* `WalkWithin.withOperations`: so many steps.
* `restricted_confined`: a machine with all built-in operations and one with a choice of them.
-/

namespace StackRover

/-! ## The operations that are activated -/

theorem Lexicon.contains_foldl_insert {α : Type} [Named α] (entries : List α) (lexicon : Lexicon α)
    (name : String) :
    (entries.foldl Lexicon.insert lexicon).contains name = true ↔
      name ∈ entries.map Named.name ∨ lexicon.contains name = true := by
  induction entries generalizing lexicon with
  | nil => simp
  | cons first rest ih =>
    rw [List.foldl_cons, ih, Lexicon.contains, Lexicon.find?_insert, List.map_cons, List.mem_cons]
    by_cases hname : name = Named.name first
    · simp [hname]
    · simp [hname, Lexicon.contains]

namespace Machine

variable {σ : Type}

/-- The operations that are activated by name are those named. -/
theorem activate_contains {names : List String} {operations : Lexicon Operation}
    (h : activate (some names) = .ok operations) (name : String) :
    operations.contains name = true ↔ name ∈ names := by
  unfold activate at h
  simp only at h
  split at h
  · rename_i hunknown
    have hknown : ∀ other ∈ names, (Builtin.ofName? other).isSome = true := by
      intro other hmem
      have hnot := List.filter_eq_nil_iff.mp hunknown other hmem
      cases hof : Builtin.ofName? other with
      | none => simp [hof] at hnot
      | some builtin => rfl
    cases h
    unfold Lexicon.ofList
    rw [Lexicon.contains_foldl_insert]
    constructor
    · rintro (hmem | hempty)
      · obtain ⟨operation, hoperation, rfl⟩ := List.mem_map.mp hmem
        obtain ⟨builtin, hbuiltin, rfl⟩ := List.mem_map.mp hoperation
        obtain ⟨other, hother, hof⟩ := List.mem_filterMap.mp hbuiltin
        rw [show Named.name builtin.operation = other from Builtin.name_of_ofName? hof]
        exact hother
      · cases hempty
    · intro hmem
      obtain ⟨builtin, hbuiltin⟩ := Option.isSome_iff_exists.mp (hknown name hmem)
      refine Or.inl (List.mem_map.mpr ⟨builtin.operation, ?_, Builtin.name_of_ofName? hbuiltin⟩)
      exact List.mem_map.mpr ⟨builtin, List.mem_filterMap.mpr ⟨name, hmem, hbuiltin⟩, rfl⟩
  · cases h

/-! ## Other operations -/

/-- The machine with other operations. -/
def withOperations (operations : Lexicon Operation) (m : Machine σ) : Machine σ :=
  { m with operations := operations }

variable {m : Machine σ} {operations : Lexicon Operation}

@[simp] theorem withOperations_memory : (m.withOperations operations).memory = m.memory := rfl

@[simp] theorem withOperations_steps : (m.withOperations operations).steps = m.steps := rfl

theorem within_withOperations {α : Type} (operations : Lexicon Operation) (task : Task σ α)
    (m : Machine σ) :
    Run.within task (m.withOperations operations) =
      mapState (withOperations operations) (Run.within task m) := by
  unfold Run.within
  rw [withOperations_memory]
  cases task m.memory <;> rfl

theorem conclude_withOperations [World σ] (operations : Lexicon Operation) (m : Machine σ) :
    conclude (m.withOperations operations) =
      mapState (withOperations operations) (conclude m) := by
  unfold conclude
  simp only [bind_apply, get_apply, modify_apply, withOperations_memory, within_withOperations]
  cases Run.within (Task.ask (World.stackChanged m.memory.stack)) m with
  | error raised told => rfl
  | ok _ told =>
    have hcount := within_withOperations operations (Task.ask (World.stepped (told.steps + 1)))
      { told with steps := told.steps + 1 }
    have hchanged : ({ told.withOperations operations with steps := told.steps + 1 } : Machine σ) =
        withOperations operations { told with steps := told.steps + 1 } := rfl
    simp only [mapState, withOperations_steps, hchanged, hcount]
    cases Run.within (Task.ask (World.stepped (told.steps + 1)))
        { told with steps := told.steps + 1 } with
    | error raised last => rfl
    | ok _ last =>
      simp only
      -- The condition is decided for either machine, so the two sides are split together.
      by_cases hlimit : last.maxSteps < last.steps
      · have hlimit' : (last.withOperations operations).maxSteps <
            (last.withOperations operations).steps := hlimit
        rw [if_pos hlimit, if_pos hlimit']
        rfl
      · have hlimit' : ¬ (last.withOperations operations).maxSteps <
            (last.withOperations operations).steps := hlimit
        rw [if_neg hlimit, if_neg hlimit']
        rfl

theorem settle_withOperations (operations : Lexicon Operation) (raised : Raised) (m : Machine σ) :
    settle raised (m.withOperations operations) =
      mapState (withOperations operations) (settle raised m) := by
  unfold settle
  cases raised.ending? <;> rfl

theorem effectOf_withOperations [World σ] {name : String}
    (h : (m.withOperations operations).meaning? name = m.meaning? name) (rest : List String) :
    (m.withOperations operations).effectOf name rest = m.effectOf name rest := by
  unfold effectOf
  rw [h]
  rfl

/-- A step depends on the operations only through what its term stands for. -/
theorem step_withOperations [World σ] (operations : Lexicon Operation) (hm : m.Unhosted)
    (hoperations : (m.withOperations operations).Unhosted)
    (hmeaning : ∀ name rest, m.memory.pending = name :: rest →
      (m.withOperations operations).meaning? name = m.meaning? name) :
    step (m.withOperations operations) =
      mapState (withOperations operations) (step m) := by
  cases hfinal : m.phase.isFinal with
  | true =>
    rw [step_final hfinal, step_final (m := m.withOperations operations) hfinal]
    rfl
  | false =>
    cases hpending : m.memory.pending with
    | nil =>
      rw [step_end hfinal hpending, step_end (m := m.withOperations operations) hfinal hpending]
      rfl
    | cons name rest =>
      rw [step_term hm hfinal hpending,
        step_term (m := m.withOperations operations) hoperations hfinal hpending,
        effectOf_withOperations (hmeaning name rest hpending)]
      cases m.effectOf name rest with
      | error raised memory =>
        exact settle_withOperations operations raised { m with memory := memory, phase := .running }
      | ok category memory =>
        have hconclude : conclude
              { m.withOperations operations with memory := memory, phase := .running } =
            mapState (withOperations operations)
              (conclude { m with memory := memory, phase := .running }) :=
          conclude_withOperations operations { m with memory := memory, phase := .running }
        simp only [hconclude]
        cases conclude { m with memory := memory, phase := .running } with
        | ok _ after => rfl
        | error raised after => exact settle_withOperations operations raised after

/-! ## Programs that name active operations only -/

/-- The next term of the machine, if it names an operation, has one of the names. -/
def StaysWithin (names : List String) (m : Machine σ) : Prop :=
  ∀ name rest operation, m.memory.pending = name :: rest →
    m.resolve name = some (.operation operation) → name ∈ names

/-- So many steps lead from the one machine to the other; each of them executes a term that is
defined or has one of the names, and goes on. -/
inductive WalkWithin [World σ] (names : List String) : Nat → Machine σ → Machine σ → Prop
  | refl (m : Machine σ) : WalkWithin names 0 m m
  | cons {n : Nat} {m next last : Machine σ} {progress : Progress} (hwithin : m.StaysWithin names)
      (hstep : step m = .ok progress next) (hgoes : progress.goesOn = true)
      (hrest : WalkWithin names n next last) : WalkWithin names (n + 1) m last

theorem resolve_builtin (builtin : Builtin) (hm : m.operations = Builtin.catalogue)
    (hdefinition : m.memory.definitions.find? builtin.name = none) :
    m.resolve builtin.name = some (.operation builtin.operation) := by
  have hmem : builtin.operation ∈ Builtin.catalogue.entries :=
    List.mem_map.mpr ⟨builtin, builtin.mem_all, rfl⟩
  have hfind : m.lookup builtin.name = some builtin.operation := by
    unfold lookup
    rw [hm]
    exact Lexicon.find?_name_of_mem hmem
  unfold resolve
  rw [hdefinition, hfind]
  rfl

/-- What a term stands for is the same with a choice of the operations, if the choice includes what
the term names. -/
theorem meaning?_withOperations (hm : m.operations = Builtin.catalogue) {name : String}
    (hactive : ∀ operation, m.resolve name = some (.operation operation) →
      operations.contains name = true) :
    (m.withOperations operations).meaning? name = m.meaning? name := by
  unfold meaning?
  rw [withOperations_memory]
  cases hdefinition : m.memory.definitions.find? name with
  | some definition => rfl
  | none =>
    cases hbuiltin : Builtin.ofName? name with
    | none => simp
    | some builtin =>
      have hname := Builtin.name_of_ofName? hbuiltin
      subst hname
      have hresolve := resolve_builtin builtin hm hdefinition
      have hfull : m.operations.contains builtin.name = true := by
        unfold resolve at hresolve
        rw [hdefinition] at hresolve
        obtain ⟨operation, hlookup, -⟩ := Option.map_eq_some_iff.mp hresolve
        exact Option.isSome_iff_exists.mpr ⟨operation, hlookup⟩
      have hfew : (m.withOperations operations).operations.contains builtin.name = true :=
        hactive _ hresolve
      simp [hfull, hfew]

/-- Steps that stay within the choice of operations are the same with all of them and with the
choice. -/
theorem WalkWithin.withOperations [World σ] {names : List String} {n : Nat} {last : Machine σ}
    (h : WalkWithin names n m last) (hnames : ∀ name ∈ names, operations.contains name = true)
    (hbuiltin : ∀ operation ∈ operations.entries,
      ∃ builtin : Builtin, operation = builtin.operation)
    (hm : m.operations = Builtin.catalogue) (hlive : m.phase.isFinal = false) :
    stepTimes n (m.withOperations operations) = .ok () (last.withOperations operations) ∧
      last.operations = Builtin.catalogue ∧ last.phase.isFinal = false := by
  induction h with
  | refl m => exact ⟨rfl, hm, hlive⟩
  | @cons n m next last progress hwithin hstep hgoes _ ih =>
    have hunhosted := catalogue_unhosted hm
    have hsame := step_withOperations operations hunhosted hbuiltin
      fun name rest hpending => meaning?_withOperations hm fun operation hresolve =>
        hnames name (hwithin name rest operation hpending hresolve)
    rw [hstep] at hsame
    rw [stepTimes, bind_apply_ok hsame]
    exact ih ((SameSetup.of_step hunhosted hstep).operations.trans hm)
      (step_goesOn_live hunhosted hstep hgoes)

/-! ## Terms that name no active operation -/

/-- The step of the machine fails because the term is unknown. It leaves what programs work on, and
the count, as they were. -/
def Refuses [World σ] (m : Machine σ) (name : String) : Prop :=
  ∃ last, step m = .ok .failed last ∧ last.phase = .failed ∧
    last.error = some (.unknownInstruction name) ∧ last.memory.stack = m.memory.stack ∧
    last.memory.pending = m.memory.pending ∧ last.memory.definitions = m.memory.definitions ∧
    last.memory.world = m.memory.world ∧ last.memory.dice = m.memory.dice ∧ last.steps = m.steps

theorem refuses_of_meaning? [World σ] (hm : m.Unhosted) (hlive : m.phase.isFinal = false)
    {name : String} {rest : List String} (hpending : m.memory.pending = name :: rest)
    (hmeaning : m.meaning? name = none) : m.Refuses name := by
  have heffect : m.effectOf name rest = .error (.fault (.unknownInstruction name)) m.looked := by
    unfold effectOf
    rw [hmeaning]
    rfl
  have hstep := step_term hm hlive hpending
  rw [heffect] at hstep
  exact ⟨_, hstep, rfl, rfl, rfl, rfl, rfl, rfl, rfl, rfl⟩

/-- A term that names an operation is unknown where that operation is not active. -/
theorem meaning?_inactive {name : String} {operation : Operation}
    (hresolve : m.resolve name = some (.operation operation))
    (hinactive : operations.contains name ≠ true) :
    (m.withOperations operations).meaning? name = none := by
  have hinactive' : (m.withOperations operations).operations.contains name ≠ true := hinactive
  unfold resolve at hresolve
  unfold meaning?
  rw [withOperations_memory]
  cases hdefinition : m.memory.definitions.find? name with
  | some definition =>
    rw [hdefinition] at hresolve
    cases hresolve
  | none => exact if_neg hinactive'

/-! ## The whole run -/

/-- Start a new run over the terms with the given definitions and stack. -/
def loadWith (m : Machine σ) (definitions : Lexicon Definition) (terms : List String)
    (stack : List Int) : Machine σ :=
  load { m with memory := { m.memory with definitions := definitions } } terms stack

theorem create_activate {world : σ} {options : Options} (h : create world options = .ok m)
    (hadditional : options.additional = []) : activate options.available = .ok m.operations := by
  obtain ⟨operations, limit, hactivate, -, rfl⟩ := create_eq h
  rw [hadditional]
  exact hactivate

/-- Two machines set up alike, but for the operations that are activated, differ in their operations
only. -/
theorem create_withOperations {world : σ} {options : Options} {available : Option (List String)}
    {full restricted : Machine σ}
    (hfull : create world { options with available := none } = .ok full)
    (hrestricted : create world { options with available := available } = .ok restricted) :
    restricted = full.withOperations restricted.operations := by
  obtain ⟨all, limit, -, hlimit, rfl⟩ := create_eq hfull
  obtain ⟨few, limit', -, hlimit', rfl⟩ := create_eq hrestricted
  have hsame : limit' = limit := Except.ok.inj (hlimit'.symm.trans hlimit)
  subst hsame
  rfl

/-- Without an active action no run moves. -/
theorem reaches_unmoved [World σ] {m m' : Machine (Watched σ)} (hm : m.Unhosted)
    (hactions : ∀ builtin : Builtin, builtin.category = .action →
      m.operations.contains builtin.name ≠ true)
    (hcalls : m.memory.world.calls = []) (h : Reaches m m') (direction : Direction) :
    .move direction ∉ m'.memory.world.calls := by
  let P : Memory (Watched σ) → Prop := fun memory =>
    ∀ direction, .move direction ∉ memory.world.calls
  have hP : Memory.Scenic P := by
    intro a b ha _ hworld direction
    rw [hworld]
    exact ha direction
  have hpass : ∀ {α : Type} (call : Call) (request : σ → Reply σ α),
      (∀ direction, .move direction ≠ call) →
      Respects P (fun _ => True) (Task.ask (Watched.pass call request)) := by
    intro α call request hcall
    refine Task.ask_respects hP (fun memory h direction hmem => ?_) fun _ _ _ => trivial
    rcases List.mem_cons.mp hmem with heq | hold
    · exact hcall direction heq
    · exact h direction hold
  have hactive : ∀ builtin : Builtin, m.operations.contains builtin.name = true →
      Respects P (fun _ => True) (builtin.perform : Task (Watched σ) Unit) := by
    intro builtin hbuiltin
    refine Builtin.perform_respects hP.durable (fun _ _ => trivial) (fun _ _ _ h => h)
      (fun haction => absurd hbuiltin (hactions builtin haction)) (fun _ => ?_) fun _ cell => ?_
    · exact hpass .position World.position (by simp)
    · exact hpass (.lookAt cell) (World.lookAt cell) (by simp)
  have hstart : P m.memory := by
    intro direction
    rw [hcalls]
    exact List.not_mem_nil
  have hnotice : ∀ request : σ → Reply σ Unit, Respects P (fun _ => True)
      (Task.ask (Watched.notify request)) :=
    fun request => Task.ask_respects hP (fun _ h => h) fun _ _ _ => trivial
  have hnotices : NoticesKeep P := ⟨fun _ => hnotice _, fun _ => hnotice _⟩
  exact reaches_keeps hP.durable hm hactive hnotices hstart h direction

/-- Without an active `DEF` no run changes the definitions. -/
theorem reaches_definitions [World σ] {m' : Machine σ} (hm : m.Unhosted)
    (hdefine : m.operations.contains Builtin.define.name ≠ true) (h : Reaches m m') :
    m'.memory.definitions = m.memory.definitions := by
  let P : Memory σ → Prop := fun memory => memory.definitions = m.memory.definitions
  have hP : Memory.Scenic P := fun ha hdefinitions _ => hdefinitions.trans ha
  have hask : ∀ {α : Type} (request : σ → Reply σ α),
      Respects P (fun _ => True) (Task.ask request) :=
    fun request => Task.ask_respects hP (fun _ h => h) fun _ _ _ => trivial
  have hactive : ∀ builtin : Builtin, m.operations.contains builtin.name = true →
      Respects P (fun _ => True) (builtin.perform : Task σ Unit) := by
    intro builtin hbuiltin
    refine Builtin.perform_respects hP.durable (fun _ _ => trivial) ?_ (fun _ _ => hask _)
      (fun _ => hask _) fun _ _ => hask _
    rintro rfl
    exact absurd hbuiltin hdefine
  exact reaches_keeps hP.durable hm hactive ⟨fun _ => hask _, fun _ => hask _⟩ rfl h

/-- **A choice of operations confines programs.** A machine with all built-in operations and one
with some of them, set up alike, start a run with the same definitions, terms and stack. As long as
the terms that the first executes are defined or active in the second, the second takes the same
steps; at the first term that names an operation left out, it fails and leaves all else as it was.
If no action is active then no program ever moves, and if `DEF` is not, then none changes the
definitions. -/
theorem restricted_confined [World σ] {world : σ} (options : Options) {names : List String}
    {full restricted : Machine σ} (hadditional : options.additional = [])
    (hfull : create world { options with available := none } = .ok full)
    (hrestricted : create world { options with available := some names } = .ok restricted)
    (definitions : Lexicon Definition) (terms : List String) (stack : List Int) :
    (∀ n next, WalkWithin names n (full.loadWith definitions terms stack) next →
      stepTimes n (restricted.loadWith definitions terms stack) =
        .ok () (next.withOperations restricted.operations) ∧
      ∀ name rest operation, next.memory.pending = name :: rest →
        next.resolve name = some (.operation operation) → name ∉ names →
        (next.withOperations restricted.operations).Refuses name) ∧
    ((∀ builtin : Builtin, builtin.category = .action → builtin.name ∉ names) →
      ∀ watched, create (⟨world, []⟩ : Watched σ) { options with available := some names } =
          .ok watched →
        ∀ m', Reaches (watched.loadWith definitions terms stack) m' →
          ∀ direction, .move direction ∉ m'.memory.world.calls) ∧
    ("DEF" ∉ names → ∀ m', Reaches (restricted.loadWith definitions terms stack) m' →
      m'.memory.definitions = definitions) := by
  have hcatalogue : full.operations = Builtin.catalogue :=
    (Except.ok.inj (create_activate hfull hadditional)).symm
  have hcontains := activate_contains (create_activate hrestricted hadditional)
  have hunhosted : restricted.Unhosted := create_unhosted hrestricted hadditional
  refine ⟨fun n next hwalk => ?_, fun hactions watched hwatched m' hreaches => ?_,
    fun hdefine m' hreaches => ?_⟩
  · have hload : restricted.loadWith definitions terms stack =
        (full.loadWith definitions terms stack).withOperations restricted.operations := by
      rw [create_withOperations hfull hrestricted]
      rfl
    have hnames : ∀ name ∈ names, restricted.operations.contains name = true :=
      fun name => (hcontains name).mpr
    obtain ⟨hsteps, -, hlive⟩ := hwalk.withOperations hnames hunhosted hcatalogue rfl
    rw [hload]
    refine ⟨hsteps, fun name rest operation hpending hresolve hname => ?_⟩
    have hinactive : restricted.operations.contains name ≠ true :=
      fun h => hname ((hcontains name).mp h)
    exact refuses_of_meaning? (m := next.withOperations restricted.operations) hunhosted hlive
      hpending (meaning?_inactive hresolve hinactive)
  · have hcontains' := activate_contains (create_activate hwatched hadditional)
    have hwatches : watched.Unhosted := create_unhosted hwatched hadditional
    have hloaded : (watched.loadWith definitions terms stack).Unhosted := hwatches
    refine reaches_unmoved hloaded (fun builtin haction h => ?_) ?_ hreaches
    · exact hactions builtin haction ((hcontains' _).mp h)
    · obtain ⟨few, limit, -, -, rfl⟩ := create_eq hwatched
      rfl
  · have hloaded : (restricted.loadWith definitions terms stack).Unhosted := hunhosted
    exact reaches_definitions hloaded (fun h => hdefine ((hcontains _).mp h)) hreaches

/-- With `DUP` alone: a definition that stands in for `UP` is executed, but the `RIGHT` in its body
is refused, and nothing has moved. -/
theorem restricted_confined_shadow :
    ∃ restricted watched next,
      create ({} : Void) { available := some ["DUP"], maxSteps := some 9, debug := some false } =
        .ok restricted ∧
      create (⟨{}, []⟩ : Watched Void)
        { available := some ["DUP"], maxSteps := some 9, debug := some false } = .ok watched ∧
      stepTimes 2 (restricted.loadWith (Lexicon.ofList [⟨"UP", ["DUP", "RIGHT"]⟩]) ["UP"] [7]) =
        .ok () next ∧
      next.memory.stack = [7, 7] ∧ next.Refuses "RIGHT" ∧
      ∀ m', Reaches (watched.loadWith (Lexicon.ofList [⟨"UP", ["DUP", "RIGHT"]⟩]) ["UP"] [7]) m' →
        ∀ direction, .move direction ∉ m'.memory.world.calls := by
  let definitions : Lexicon Definition := Lexicon.ofList [⟨"UP", ["DUP", "RIGHT"]⟩]
  let few : Lexicon Operation := Lexicon.ofList [Builtin.dup.operation]
  let full : Machine Void := plain {} 9
  let restricted : Machine Void := full.withOperations few
  let watched : Machine (Watched Void) := (plain ⟨{}, []⟩ 9).withOperations few
  have hfull : create ({} : Void)
      { available := none, maxSteps := some 9, debug := some false } = .ok full := rfl
  have hrestricted : create ({} : Void)
      { available := some ["DUP"], maxSteps := some 9, debug := some false } = .ok restricted := rfl
  have hwatched : create (⟨{}, []⟩ : Watched Void)
      { available := some ["DUP"], maxSteps := some 9, debug := some false } = .ok watched := rfl
  let start : Machine Void := full.loadWith definitions ["UP"] [7]
  have hfirst : valueOf (step start) = some .ongoing := by decide +kernel
  have hsecond : valueOf (step (stateOf (step start))) = some .ongoing := by decide +kernel
  have hpending : (stateOf (step start)).memory.pending = ["DUP", "RIGHT"] := by decide +kernel
  have hpending' : (stateOf (step (stateOf (step start)))).memory.pending = ["RIGHT"] := by
    decide +kernel
  have hstack : (stateOf (step (stateOf (step start)))).memory.stack = [7, 7] := by decide +kernel
  have hdefinition : (stateOf (step (stateOf (step start)))).memory.definitions.find? "RIGHT" =
      none := by
    decide +kernel
  obtain ⟨hwithin, hactions, -⟩ :=
    restricted_confined { maxSteps := some 9, debug := some false } rfl hfull hrestricted
      definitions ["UP"] [7]
  have hstart : start.StaysWithin ["DUP"] := by
    intro name rest operation hterm hresolve
    cases hterm
    cases hresolve
  -- The machines after the first step are kept folded from here on.
  have hstep := eq_ok_of_valueOf hfirst
  have hstep' := eq_ok_of_valueOf hsecond
  generalize stateOf (step start) = middle at hstep hstep' hpending hpending' hstack hdefinition
  generalize stateOf (step middle) = next at hstep' hpending' hstack hdefinition
  have hmiddle : middle.StaysWithin ["DUP"] := by
    intro name rest operation hterm hresolve
    rw [hpending] at hterm
    cases hterm
    decide
  have hwalk : WalkWithin ["DUP"] 2 start next :=
    .cons hstart hstep rfl (.cons hmiddle hstep' rfl (.refl next))
  obtain ⟨hsteps, hrefuses⟩ := hwithin 2 next hwalk
  have hoperations : next.operations = Builtin.catalogue := by
    have hunhosted : start.Unhosted := catalogue_unhosted rfl
    have hsame := SameSetup.of_step hunhosted hstep
    exact (SameSetup.of_step (hsame.unhosted hunhosted) hstep').operations.trans hsame.operations
  have hresolve : next.resolve "RIGHT" = some (.operation (Builtin.go .right).operation) :=
    resolve_builtin (.go .right) hoperations hdefinition
  refine ⟨restricted, watched, _, hrestricted, hwatched, hsteps, hstack,
    hrefuses "RIGHT" [] _ hpending' hresolve (by decide), ?_⟩
  refine hactions (fun builtin haction hname => ?_) watched hwatched
  have hdup : builtin = .dup := Builtin.name_injective (List.mem_singleton.mp hname)
  subst hdup
  cases haction

end Machine

end StackRover
