import StackRover.Proofs.Invariants
import StackRover.Proofs.Lifecycle

/-!
# How a step ends

In a world that may raise something at every request and at both notifications, a step has five ways
to end: the effect of its term raises something, one of the two notifications does, the count has
passed the limit, or the run goes on. This module says so once, for every machine whose host
operations neither step nor load it; what such an operation does is an effect on the memory like
that of a built-in one.

* `wrapUp`: what a step makes of the effect of its term.
* `step_wrapUp`: the step of a machine without host operations.
* `StepFree.stepAt_eq`: steps to every depth, where no operation steps the machine.
* `step_steady`, `Steady.step_cases`: the step of a machine whose host operations neither step nor
  load it.
* `wrapUp_goesOn`, `wrapUp_stops`, `wrapUp_raises`: what is left of the run in each case.
-/

namespace StackRover

variable {σ : Type} {permitted : Raised → Prop}

/-- What a request raises is what the world has raised. -/
theorem Task.result_of_ask {α : Type} {request : σ → Reply σ α} {m m' : Memory σ} {raised : Raised}
    (h : Task.ask request m = .error raised m') : (request m.world).result = .error raised := by
  simp only [Task.ask] at h
  split at h
  · cases h
  · rename_i hresult
    cases h
    exact hresult

/-! ## Operations that neither step nor load the machine -/

/-- All that the script raises of its own is permitted. -/
def Script.RaisesOnly (permitted : Raised → Prop) : Script → Prop
  | .done => True
  | .raise raised => permitted raised
  | .push _ next | .splice _ next | .define _ _ next | .forget next | .load _ _ next
  | .write _ next => next.RaisesOnly permitted
  | .pop next => ∀ value, (next value).RaisesOnly permitted
  | .take _ next => ∀ term, (next term).RaisesOnly permitted
  | .observe next => ∀ sight, (next sight).RaisesOnly permitted
  | .step next => ∀ progress, (next progress).RaisesOnly permitted

/-- The script neither steps nor loads the machine, and all that it raises of its own is permitted.
-/
structure Script.Docile (permitted : Raised → Prop) (script : Script) : Prop where
  stepFree : script.StepFree
  loadFree : script.LoadFree
  raises : script.RaisesOnly permitted

/-- The effect neither steps nor loads the machine, and all that a script raises is permitted. -/
def Effect.Docile (permitted : Raised → Prop) : Effect → Prop
  | .builtin _ => True
  | .hosted script => script.Docile permitted

namespace Machine

/-- No operation steps or loads the machine, and all that can be raised while it runs is permitted.
-/
structure Steady [World σ] (permitted : Raised → Prop) (m : Machine σ) : Prop where
  world : RaisesOnly σ permitted
  ordinary : ∀ raised : Raised, raised.IsOrdinary → permitted raised
  docile : ∀ operation ∈ m.operations.entries, operation.effect.Docile permitted

/-- The second machine is the first with another memory. -/
def OnlyMemory (m m' : Machine σ) : Prop := m' = { m with memory := m'.memory }

variable {m : Machine σ}

theorem Unhosted.steady [World σ] (hm : m.Unhosted) (hworld : RaisesOnly σ permitted)
    (hordinary : ∀ raised : Raised, raised.IsOrdinary → permitted raised) : m.Steady permitted := by
  refine ⟨hworld, hordinary, fun operation hmem => ?_⟩
  obtain ⟨builtin, rfl⟩ := hm operation hmem
  trivial

theorem Steady.of_sameSetup [World σ] {m' : Machine σ} (h : m.Steady permitted)
    (hsame : SameSetup m m') : m'.Steady permitted := by
  refine ⟨h.world, h.ordinary, fun operation hmem => ?_⟩
  rw [hsame.operations] at hmem
  exact h.docile operation hmem

theorem within_onlyMemory {α : Type} {task : Task σ α}
    (hraises : ∀ memory memory' raised, task memory = .error raised memory' → permitted raised) :
    Respects (OnlyMemory m) permitted (Run.within task) := by
  refine ⟨fun m' hm' => ?_, fun m' m'' raised h => ?_⟩
  · unfold OnlyMemory at hm'
    unfold Run.within
    rw [hm']
    cases task m'.memory <;> rfl
  · unfold Run.within at h
    cases htask : task m'.memory with
    | ok value memory =>
      rw [htask] at h
      cases h
    | error raised' memory =>
      rw [htask] at h
      cases h
      exact hraises _ _ _ htask

end Machine

open Machine

/-- A docile script works on the memory only. -/
theorem Script.perform_onlyMemory
    (hordinary : ∀ raised : Raised, raised.IsOrdinary → permitted raised) (again : Run σ Progress)
    {script : Script} (h : script.Docile permitted) (m : Machine σ) :
    Respects (OnlyMemory m) permitted (script.perform again) := by
  have hchange : ∀ f : Machine σ → Machine σ, (∀ m', OnlyMemory m m' → OnlyMemory m (f m')) →
      Respects (OnlyMemory m) permitted (modify f : Run σ PUnit) := fun f hf => .change hf
  have hsimple : ∀ task : Task σ Unit, (∀ memory, raisedOf (task memory) = none) →
      Respects (OnlyMemory m) permitted (Run.within task) := by
    intro task htask
    refine within_onlyMemory fun memory memory' raised herror => ?_
    have hnone := htask memory
    rw [herror] at hnone
    cases hnone
  obtain ⟨hstep, hload, hraises⟩ := h
  induction script with
  | done => exact .pure ()
  | raise raised => exact .throw hraises
  | step next => exact absurd hstep id
  | load terms stack next => exact absurd hload id
  | push values next ih =>
    refine .bind (hchange _ fun m' hm' => ?_) fun _ => ih hstep hload hraises
    rw [OnlyMemory] at hm'
    rw [hm']
    rfl
  | splice terms next ih =>
    exact .bind (hsimple _ fun _ => rfl) fun _ => ih hstep hload hraises
  | define name body next ih =>
    refine .bind (hsimple _ fun memory => ?_) fun _ => ih hstep hload hraises
    simp only [Task.define, bind_apply, get_apply]
    split <;> rfl
  | forget next ih => exact .bind (hsimple _ fun _ => rfl) fun _ => ih hstep hload hraises
  | write note next ih => exact .bind (hsimple _ fun _ => rfl) fun _ => ih hstep hload hraises
  | observe next ih =>
    exact .bind .get fun m' => ih m'.sight (hstep _) (hload _) (hraises _)
  | pop next ih =>
    refine .bind (within_onlyMemory fun memory memory' raised herror => ?_) fun value =>
      ih value (hstep value) (hload value) (hraises value)
    unfold Task.pop at herror
    split at herror
    · cases herror
    · cases herror
      exact hordinary _ trivial
  | take name next ih =>
    refine .bind (within_onlyMemory fun memory memory' raised herror => ?_) fun term =>
      ih term (hstep term) (hload term) (hraises term)
    unfold Task.nextTerm at herror
    split at herror
    · cases herror
    · cases herror
      exact hordinary _ (Raised.isOrdinary_ofFault (by simp))

namespace Machine

variable {m : Machine σ}

/-- So does whatever a term names in a steady machine. -/
theorem perform_onlyMemory [World σ] (hm : m.Steady permitted) (again : Run σ Progress)
    {name : String} {entry : Entry}
    (hresolve : m.resolve name = some entry) (m' : Machine σ) :
    Respects (OnlyMemory m') permitted (entry.perform again) := by
  cases entry with
  | definition d =>
    simp only [Entry.perform]
    refine within_onlyMemory fun memory memory' raised herror => ?_
    cases herror
  | operation o =>
    have hdocile := hm.docile o (mem_of_resolve hresolve)
    simp only [Entry.perform]
    cases heffect : o.effect with
    | hosted script =>
      rw [heffect] at hdocile
      exact Script.perform_onlyMemory hm.ordinary again hdocile m'
    | builtin builtin =>
      let P : Memory σ → Prop := fun _ => True
      have hP : Memory.Scenic P := fun _ _ _ => trivial
      have hbuiltin : Respects P permitted (builtin.perform : Task σ Unit) := by
        refine Builtin.perform_respects hP.durable hm.ordinary (fun _ _ _ _ => trivial) ?_ ?_ ?_
        · intro _ direction
          exact Task.ask_respects hP (fun _ _ => trivial) (hm.world.move direction)
        · exact fun _ => Task.ask_respects hP (fun _ _ => trivial) hm.world.position
        · intro _ cell
          exact Task.ask_respects hP (fun _ _ => trivial) (hm.world.lookAt cell)
      exact within_onlyMemory fun memory memory' raised => hbuiltin.raises memory memory' raised

/-! ## Nested steps -/

theorem Unhosted.stepFree (hm : m.Unhosted) : m.StepFree := by
  intro operation hmem
  obtain ⟨builtin, rfl⟩ := hm operation hmem
  trivial

theorem Steady.stepFree [World σ] (hm : m.Steady permitted) : m.StepFree := by
  intro operation hmem
  have hdocile := hm.docile operation hmem
  cases heffect : operation.effect with
  | builtin builtin => trivial
  | hosted script =>
    rw [heffect] at hdocile
    exact hdocile.stepFree

theorem StepFree.dispatch_eq [World σ] (hm : m.StepFree) (again again' : Run σ Progress)
    (name : String) (rest : List String) :
    dispatch again name rest m = dispatch again' name rest m := by
  unfold dispatch
  simp only [bind_apply, get_apply, trace_apply]
  cases hresolve : m.resolve name with
  | none => rfl
  | some entry =>
    have hperform : entry.perform again = entry.perform again' := by
      cases entry with
      | definition d => rfl
      | operation o =>
        cases heffect : o.effect with
        | builtin builtin => simp only [Entry.perform, heffect]
        | hosted script =>
          simp only [Entry.perform, heffect]
          exact Script.perform_stepFree again' (hm.script hresolve heffect)
    simp only [hperform]

/-- Where no operation steps the machine, the depth to which it may does not matter. -/
theorem StepFree.stepAt_eq [World σ] (hm : m.StepFree) (depth : Nat) :
    stepAt (depth + 1) m = step m := by
  rw [step_eq_stepWith, stepAt]
  cases hfinal : m.phase.isFinal with
  | true => rw [stepWith_final _ hfinal, stepWith_final _ hfinal]
  | false =>
    cases hpending : m.memory.pending with
    | nil => rw [stepWith_end _ hfinal hpending, stepWith_end _ hfinal hpending]
    | cons name rest =>
      have hrunning : ({ m with phase := .running } : Machine σ).StepFree := hm
      rw [stepWith_term _ hfinal hpending, stepWith_term _ hfinal hpending,
        hrunning.dispatch_eq (stepAt depth) (stepAt (nestingLimit - 1))]

/-! ## Steps that find no term -/

theorem idle_or_term (m : Machine σ) :
    (m.phase.isFinal = true ∨ m.memory.pending = []) ∨
      ∃ name rest, m.phase.isFinal = false ∧ m.memory.pending = name :: rest := by
  cases hfinal : m.phase.isFinal with
  | true => exact Or.inl (Or.inl rfl)
  | false =>
    cases hpending : m.memory.pending with
    | nil => exact Or.inl (Or.inr rfl)
    | cons name rest => exact Or.inr ⟨name, rest, rfl, rfl⟩

/-- Where there is no term to execute, the step ends the run; the world is not asked anything. -/
theorem step_idle [World σ] (hidle : m.phase.isFinal = true ∨ m.memory.pending = []) :
    ∃ progress last, step m = .ok progress last ∧ progress.goesOn = false ∧
      last.phase.isFinal = true ∧ SameSetup m last ∧ last.memory.world = m.memory.world ∧
      last.steps = m.steps := by
  cases hfinal : m.phase.isFinal with
  | true =>
    refine ⟨_, m, step_final hfinal, ?_, hfinal, ⟨rfl, rfl, rfl⟩, rfl, rfl⟩
    split <;> rfl
  | false =>
    rcases hidle with hphase | hpending
    · rw [hfinal] at hphase
      cases hphase
    · exact ⟨_, _, step_end hfinal hpending, rfl, rfl, ⟨rfl, rfl, rfl⟩, rfl, rfl⟩

/-! ## The five endings -/

/-- What a step makes of the effect of its term: the world is told of the stack, the term is
counted, the world is told of the count, and the count is checked. -/
def wrapUp [World σ] (m : Machine σ) (effect : EStateM.Result Raised (Memory σ) Category) :
    EStateM.Result Raised (Machine σ) Progress :=
  match effect with
  | .error raised memory => settle raised { m with memory := memory, phase := .running }
  | .ok category memory =>
    match Task.ask (World.stackChanged memory.stack) memory with
    | .error raised told => settle raised { m with memory := told, phase := .running }
    | .ok _ told =>
      match Task.ask (World.stepped (m.steps + 1)) told with
      | .error raised counted =>
        settle raised { m with memory := counted, steps := m.steps + 1, phase := .running }
      | .ok _ counted =>
        if m.maxSteps < ((m.steps + 1 : Nat) : Int) then
          settle (Raised.ofFault (.programTooLong m.maxSteps))
            { m with memory := counted, steps := m.steps + 1, phase := .running }
        else
          .ok category.progress
            { m with memory := counted, steps := m.steps + 1, phase := category.phase }

/-- The notifications, the count and the check, request by request. -/
theorem conclude_eq [World σ] (m : Machine σ) :
    conclude m =
      match Task.ask (World.stackChanged m.memory.stack) m.memory with
      | .error raised told => .error raised { m with memory := told }
      | .ok _ told =>
        match Task.ask (World.stepped (m.steps + 1)) told with
        | .error raised counted =>
          .error raised { m with memory := counted, steps := m.steps + 1 }
        | .ok _ counted =>
          if m.maxSteps < ((m.steps + 1 : Nat) : Int) then
            .error (Raised.ofFault (.programTooLong m.maxSteps))
              { m with memory := counted, steps := m.steps + 1 }
          else .ok () { m with memory := counted, steps := m.steps + 1 } := by
  unfold conclude
  simp only [bind_apply, get_apply, modify_apply, Run.within]
  cases Task.ask (World.stackChanged m.memory.stack) m.memory with
  | error raised told => rfl
  | ok _ told =>
    simp only
    cases Task.ask (World.stepped (m.steps + 1)) told with
    | error raised counted => rfl
    | ok _ counted =>
      simp only
      split <;> rfl

/-- A term whose effect is on the memory only makes a step that ends in one of the five ways. -/
theorem step_of_dispatch [World σ] (hlive : m.phase.isFinal = false) {name : String}
    {rest : List String} (hpending : m.memory.pending = name :: rest)
    {effect : EStateM.Result Raised (Memory σ) Category}
    (hdispatch : dispatch (stepAt (nestingLimit - 1)) name rest { m with phase := .running } =
      match effect with
      | .ok category memory =>
        match conclude { m with memory := memory, phase := .running } with
        | .ok _ after => .ok category after
        | .error raised after => .error raised after
      | .error raised memory => .error raised { m with memory := memory, phase := .running }) :
    step m = m.wrapUp effect := by
  rw [step_eq_stepWith, stepWith_term _ hlive hpending, hdispatch]
  unfold wrapUp
  cases effect with
  | error raised memory => exact report_error_running rfl
  | ok category memory =>
    simp only [conclude_eq]
    cases Task.ask (World.stackChanged memory.stack) memory with
    | error raised told => exact report_error_running rfl
    | ok _ told =>
      simp only
      cases Task.ask (World.stepped (m.steps + 1)) told with
      | error raised counted => exact report_error_running rfl
      | ok _ counted =>
        by_cases hlimit : m.maxSteps < ((m.steps + 1 : Nat) : Int)
        · simp only [if_pos hlimit]
          exact report_error_running rfl
        · simp only [if_neg hlimit]
          exact report_ok_running rfl

/-- The step of a machine without host operations. -/
theorem step_wrapUp [World σ] (hm : m.Unhosted) (hlive : m.phase.isFinal = false) {name : String}
    {rest : List String} (hpending : m.memory.pending = name :: rest) :
    step m = m.wrapUp (m.effectOf name rest) :=
  step_of_dispatch hlive hpending
    (dispatch_unhosted (m := { m with phase := .running }) hm _ name rest)

/-- What a term does in a steady machine is an effect on the memory, and then the step is concluded.
-/
theorem dispatch_steady [World σ] (hm : m.Steady permitted) (again : Run σ Progress) (name : String)
    (rest : List String) :
    ∃ effect : EStateM.Result Raised (Memory σ) Category,
      (∀ raised memory, effect = .error raised memory → permitted raised) ∧
      dispatch again name rest m =
        match effect with
        | .ok category memory =>
          match conclude { m with memory := memory } with
          | .ok _ after => .ok category after
          | .error raised after => .error raised after
        | .error raised memory => .error raised { m with memory := memory } := by
  have hfault : ∀ fault : Fault, (∀ limit, fault ≠ .programTooLong limit) →
      permitted (Raised.ofFault fault) :=
    fun fault h => hm.ordinary _ (Raised.isOrdinary_ofFault h)
  cases hresolve : m.resolve name with
  | none =>
    refine ⟨.error (Raised.ofFault (.unknownInstruction name)) m.looked,
      fun raised memory h => ?_, ?_⟩
    · cases h
      exact hfault _ (by simp)
    · unfold dispatch
      simp only [bind_apply, get_apply, trace_apply, noted_looked, hresolve]
      rfl
  | some entry =>
    by_cases hdepth : entry.minDepth ≤ m.memory.stack.length
    · rw [dispatch_entry hresolve rest hdepth]
      have hperform := perform_onlyMemory hm again hresolve { m with memory := m.taken name rest }
      have hkeeps := hperform.keeps { m with memory := m.taken name rest } rfl
      rw [bind_apply]
      -- The effect leaves another memory and nothing else, so the step is concluded on that memory.
      cases hresult : entry.perform again { m with memory := m.taken name rest } with
      | ok _ after =>
        rw [hresult, stateOf_ok] at hkeeps
        obtain ⟨memory, rfl⟩ : ∃ memory, after = { m with memory := memory } := ⟨_, hkeeps⟩
        refine ⟨.ok entry.category memory, fun raised memory h => ?_, ?_⟩
        · cases h
        · simp only [bind_apply]
          cases conclude { m with memory := memory } <;> rfl
      | error raised after =>
        rw [hresult, stateOf_error] at hkeeps
        obtain ⟨memory, rfl⟩ : ∃ memory, after = { m with memory := memory } := ⟨_, hkeeps⟩
        refine ⟨.error raised memory, fun raised' memory' h => ?_, rfl⟩
        cases h
        exact hperform.raises _ _ _ hresult
    · have hholds : ¬ holds entry.minDepth m.memory.stack = true := fun hholds =>
        hdepth ((holds_iff _ _).mp hholds)
      refine ⟨.error (Raised.ofFault (.stackUnderflow name entry.minDepth m.memory.stack.length))
        m.looked, fun raised memory h => ?_, ?_⟩
      · obtain ⟨hraised, -⟩ := EStateM.Result.error.inj h
        rw [← hraised]
        exact hfault _ (by simp)
      · unfold dispatch
        simp only [bind_apply, get_apply, trace_apply, noted_looked, hresolve, hholds]
        rfl

/-- The step of a machine whose host operations neither step nor load it. -/
theorem step_steady [World σ] (hm : m.Steady permitted) (hlive : m.phase.isFinal = false)
    {name : String} {rest : List String} (hpending : m.memory.pending = name :: rest) :
    ∃ effect : EStateM.Result Raised (Memory σ) Category,
      (∀ raised memory, effect = .error raised memory → permitted raised) ∧
      step m = m.wrapUp effect := by
  have hrunning : ({ m with phase := .running } : Machine σ).Steady permitted :=
    hm.of_sameSetup ⟨rfl, rfl, rfl⟩
  obtain ⟨effect, hraises, hdispatch⟩ :=
    dispatch_steady hrunning (stepAt (nestingLimit - 1)) name rest
  exact ⟨effect, hraises, step_of_dispatch hlive hpending hdispatch⟩

/-- All that a step can do: it finds no term and ends the run, or it has one of the five endings. -/
theorem Steady.step_cases [World σ] (hm : m.Steady permitted) :
    (∃ progress last, Machine.step m = .ok progress last ∧ progress.goesOn = false ∧
      last.phase.isFinal = true ∧ SameSetup m last) ∨
    ∃ effect : EStateM.Result Raised (Memory σ) Category,
      (∀ raised memory, effect = .error raised memory → permitted raised) ∧
      Machine.step m = m.wrapUp effect := by
  rcases idle_or_term m with hidle | ⟨name, rest, hlive, hpending⟩
  · obtain ⟨progress, last, hstep, hstops, hfinal, hsame, -, -⟩ := step_idle hidle
    exact Or.inl ⟨progress, last, hstep, hstops, hfinal, hsame⟩
  · exact Or.inr (step_steady hm hlive hpending)

/-! ## What is left of the run -/

theorem settle_failed {raised : Raised} {next : Machine σ} {progress : Progress}
    (h : settle raised m = .ok progress next) :
    progress = .failed ∧ next.phase = .failed ∧ next.error ≠ none := by
  unfold settle at h
  cases hending : raised.ending? with
  | none =>
    rw [hending] at h
    cases h
  | some fault =>
    rw [hending] at h
    cases h
    exact ⟨rfl, rfl, Option.some_ne_none fault⟩

/-- A step that goes on has counted its term within the limit. -/
theorem wrapUp_goesOn [World σ] {effect : EStateM.Result Raised (Memory σ) Category}
    {progress : Progress} {next : Machine σ} (h : m.wrapUp effect = .ok progress next)
    (hgoes : progress.goesOn = true) :
    ∃ category memory told counted, effect = .ok category memory ∧
      Task.ask (World.stackChanged memory.stack) memory = .ok () told ∧
      Task.ask (World.stepped (m.steps + 1)) told = .ok () counted ∧
      ((m.steps + 1 : Nat) : Int) ≤ m.maxSteps ∧ progress = category.progress ∧
      next = { m with memory := counted, steps := m.steps + 1, phase := category.phase } := by
  have hnot : ∀ {raised : Raised} {m' : Machine σ}, settle raised m' ≠ .ok progress next := by
    intro raised m' hsettle
    rw [(settle_failed hsettle).1] at hgoes
    cases hgoes
  unfold wrapUp at h
  cases effect with
  | error raised memory => exact absurd h hnot
  | ok category memory =>
    simp only at h
    cases htold : Task.ask (World.stackChanged memory.stack) memory with
    | error raised told =>
      rw [htold] at h
      exact absurd h hnot
    | ok _ told =>
      simp only [htold] at h
      cases hcounted : Task.ask (World.stepped (m.steps + 1)) told with
      | error raised counted =>
        rw [hcounted] at h
        exact absurd h hnot
      | ok _ counted =>
        simp only [hcounted] at h
        split at h
        · exact absurd h hnot
        · rename_i hlimit
          cases h
          exact ⟨category, memory, told, counted, rfl, htold, hcounted, by omega, rfl, rfl⟩

/-- A step that executes a term and does not go on leaves a failed run. -/
theorem wrapUp_stops [World σ] {effect : EStateM.Result Raised (Memory σ) Category}
    {progress : Progress} {next : Machine σ} (h : m.wrapUp effect = .ok progress next)
    (hgoes : progress.goesOn = false) :
    progress = .failed ∧ next.phase = .failed ∧ next.error ≠ none := by
  unfold wrapUp at h
  split at h
  · exact settle_failed h
  · split at h
    · exact settle_failed h
    · split at h
      · exact settle_failed h
      · split at h
        · exact settle_failed h
        · cases h
          rw [Category.goesOn_progress] at hgoes
          cases hgoes

/-- What escapes from a step ends no run, and was raised by the effect or by a notification. -/
theorem wrapUp_raises [World σ] (hworld : RaisesOnly σ permitted)
    {effect : EStateM.Result Raised (Memory σ) Category}
    (heffect : ∀ raised memory, effect = .error raised memory → permitted raised) {raised : Raised}
    {next : Machine σ} (h : m.wrapUp effect = .error raised next) :
    permitted raised ∧ raised.ending? = none := by
  have hsettle : ∀ {other : Raised} {m' : Machine σ}, settle other m' = .error raised next →
      raised = other ∧ other.ending? = none := by
    intro other m' hsettle
    unfold settle at hsettle
    split at hsettle
    · cases hsettle
    · rename_i hnone
      cases hsettle
      exact ⟨rfl, hnone⟩
  unfold wrapUp at h
  split at h
  · obtain ⟨rfl, hnone⟩ := hsettle h
    exact ⟨heffect _ _ rfl, hnone⟩
  · split at h
    · rename_i htold
      obtain ⟨rfl, hnone⟩ := hsettle h
      exact ⟨hworld.stackChanged _ _ _ (Task.result_of_ask htold), hnone⟩
    · split at h
      · rename_i hcounted
        obtain ⟨rfl, hnone⟩ := hsettle h
        exact ⟨hworld.stepped _ _ _ (Task.result_of_ask hcounted), hnone⟩
      · split at h
        · exact absurd (hsettle h).2 (Raised.ending?_ofFault _)
        · cases h

theorem wrapUp_sameSetup [World σ] (m : Machine σ)
    (effect : EStateM.Result Raised (Memory σ) Category) :
    SameSetup m (stateOf (m.wrapUp effect)) := by
  have hsettle : ∀ (raised : Raised) (m' : Machine σ), SameSetup m m' →
      SameSetup m (stateOf (settle raised m')) :=
    fun raised m' hsame => hsame.trans (settle_sameSetup raised m')
  unfold wrapUp
  split
  · exact hsettle _ _ ⟨rfl, rfl, rfl⟩
  · split
    · exact hsettle _ _ ⟨rfl, rfl, rfl⟩
    · split
      · exact hsettle _ _ ⟨rfl, rfl, rfl⟩
      · split
        · exact hsettle _ _ ⟨rfl, rfl, rfl⟩
        · exact ⟨rfl, rfl, rfl⟩

end Machine

end StackRover
