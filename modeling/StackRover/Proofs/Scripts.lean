import StackRover.Proofs.Runs

/-!
# Steps with host operations

A script is carried out one request after the other. A request works on the memory, loads the
machine anew or takes a nested step; nothing else can change the course of the run, that is its
phase and its error. This module says once what a script and a step of any machine can do to the
course of a run; what holds of machines with host operations is derived from it.

* `Script.perform_cases`: a script ends where no request is left, or where a request raises
  something.
* `Script.request_cases`: what one request can do.
* `Script.perform_stepFree`: a script without nested steps does not depend on the step.
* `Machine.dispatch_cases`: a term changes the course of a run only through a script.
* `Machine.stepWith_term`: what a step makes of the result of its term.
-/

namespace StackRover

variable {σ α β : Type}

namespace Machine

/-! ## The course of a run -/

/-- The second machine has the setup of the first, and its run has the same phase and error. -/
structure SameCourse (m m' : Machine σ) : Prop extends SameSetup m m' where
  phase : m'.phase = m.phase
  error : m'.error = m.error

theorem SameCourse.refl (m : Machine σ) : SameCourse m m := ⟨⟨rfl, rfl, rfl⟩, rfl, rfl⟩

theorem SameCourse.trans {a b c : Machine σ} (h : SameCourse a b) (h' : SameCourse b c) :
    SameCourse a c :=
  ⟨h.toSameSetup.trans h'.toSameSetup, h'.phase.trans h.phase, h'.error.trans h.error⟩

theorem within_sameCourse (task : Task σ α) (m : Machine σ) :
    SameCourse m (stateOf (Run.within task m)) := by
  unfold Run.within
  cases task m.memory <;> exact ⟨⟨rfl, rfl, rfl⟩, rfl, rfl⟩

theorem conclude_sameCourse [World σ] (m : Machine σ) : SameCourse m (stateOf (conclude m)) := by
  have hnotified := conclude_notified m
  exact ⟨⟨hnotified.operations, hnotified.maxSteps, hnotified.debug⟩, hnotified.phase,
    hnotified.error⟩

/-- The memory of a machine does not belong to the course of its run. -/
theorem sameCourse_withMemory (m : Machine σ) (memory : Memory σ) :
    SameCourse m { m with memory := memory } := ⟨⟨rfl, rfl, rfl⟩, rfl, rfl⟩

end Machine

open Machine

/-! ## Scripts, request by request -/

namespace Script

/-- Carry out the first request of a script. Gives the script that is left. -/
def request (again : Run σ Progress) : Script → Run σ Script
  | .done => pure .done
  | .push values next => do
    modify fun machine => machine.pushAll values
    return next
  | .pop next => return next (← Run.within Task.pop)
  | .splice terms next => do
    Run.within (Task.splice terms)
    return next
  | .take name next => return next (← Run.within (Task.nextTerm name))
  | .define name body next => do
    Run.within (Task.define name body)
    return next
  | .forget next => do
    Run.within Task.forget
    return next
  | .load terms stack next => do
    modify fun machine => machine.load terms stack
    return next
  | .step next => return next (← again)
  | .write note next => do
    Run.emit (.note note)
    return next
  | .observe next => return next (← get).sight
  | .raise raised => throw raised

/-- A script and the machine that it is carried out on. -/
structure Moment (σ : Type) where
  script : Script
  machine : Machine σ

/-- The second moment follows the first by one request. -/
def Moment.Next (again : Run σ Progress) (a b : Moment σ) : Prop :=
  a.script.request again a.machine = .ok b.script b.machine

/-- Carrying out the script of the first moment comes to the second. -/
def Moment.Reaches (again : Run σ Progress) : Moment σ → Moment σ → Prop :=
  Relation.ReflTransGen (Moment.Next again)

variable {again : Run σ Progress}

theorem perform_eq_request {script : Script} (h : script ≠ .done) :
    script.perform again = script.request again >>= fun next => next.perform again := by
  cases script with
  | done => exact absurd rfl h
  | raise raised => rfl
  | _ => simp only [perform, request, bind_assoc, pure_bind]

/-- What a computation gives whose result is handed on through a function. -/
theorem exists_of_bind_pure {ε τ : Type} {x : EStateM ε τ α} {f : α → β} {t t' : τ} {b : β}
    (h : (x >>= fun a => pure (f a)) t = .ok b t') : ∃ a, b = f a := by
  rw [bind_apply] at h
  cases hx : x t with
  | error e s =>
    rw [hx] at h
    cases h
  | ok a s =>
    rw [hx] at h
    cases h
    exact ⟨a, rfl⟩

theorem stateOf_bind_pure {ε τ : Type} (x : EStateM ε τ α) (f : α → β) (t : τ) :
    stateOf ((x >>= fun a => pure (f a)) t) = stateOf (x t) := by
  rw [bind_apply]
  cases x t <;> rfl

/-- The script ends as `perform` says: at a moment at which no request is left, or at one whose
request raises something. -/
def Ends (again : Run σ Progress) (script : Script) (m : Machine σ) : Prop :=
  ∃ last : Moment σ, Moment.Reaches again ⟨script, m⟩ last ∧
    (script.perform again m = .ok () last.machine ∨
      ∃ raised after, last.script.request again last.machine = .error raised after ∧
        script.perform again m = .error raised after)

theorem ends_of_next {script : Script} {m : Machine σ} (hne : script ≠ .done)
    (h : ∀ next after, script.request again m = .ok next after → next.Ends again after) :
    script.Ends again m := by
  have hperform : script.perform again m =
      (script.request again >>= fun next => next.perform again) m := by
    rw [perform_eq_request hne]
  cases hrequest : script.request again m with
  | error raised after =>
    rw [bind_apply_error hrequest] at hperform
    exact ⟨⟨script, m⟩, .refl, Or.inr ⟨raised, after, hrequest, hperform⟩⟩
  | ok next after =>
    rw [bind_apply_ok hrequest] at hperform
    obtain ⟨last, hreaches, hlast⟩ := h next after hrequest
    have hnext : Moment.Next again ⟨script, m⟩ ⟨next, after⟩ := hrequest
    refine ⟨last, .head hnext hreaches, ?_⟩
    rw [hperform]
    exact hlast

/-- A script ends where no request is left, or where a request raises something. -/
theorem perform_cases (again : Run σ Progress) (script : Script) (m : Machine σ) :
    script.Ends again m := by
  induction script generalizing m with
  | done => exact ⟨⟨.done, m⟩, .refl, Or.inl rfl⟩
  | raise raised => exact ⟨⟨.raise raised, m⟩, .refl, Or.inr ⟨raised, m, rfl, rfl⟩⟩
  | push _ next ih | splice _ next ih | define _ _ next ih | forget next ih | load _ _ next ih
  | write _ next ih =>
    refine ends_of_next (by simp) fun left after hleft => ?_
    obtain ⟨-, rfl⟩ := exists_of_bind_pure hleft
    exact ih after
  | observe next ih =>
    refine ends_of_next (by simp) fun left after hleft => ?_
    cases hleft
    exact ih _ _
  | pop next ih | take _ next ih | step next ih =>
    refine ends_of_next (by simp) fun left after hleft => ?_
    obtain ⟨answer, rfl⟩ := exists_of_bind_pure hleft
    exact ih answer after

/-! ## What a request can do -/

/-- A request leaves the course of the run as it was, unless it loads the machine anew or takes a
nested step. -/
theorem request_cases (again : Run σ Progress) (script : Script) (m : Machine σ) :
    SameCourse m (stateOf (script.request again m)) ∨
      (∃ terms stack next, script = .load terms stack next ∧
        script.request again m = .ok next (m.load terms stack)) ∨
      ∃ next, script = .step next ∧ stateOf (script.request again m) = stateOf (again m) := by
  cases script with
  | done | raise | push | observe => exact Or.inl (sameCourse_withMemory m _)
  | pop | splice | take | define | forget | write =>
    refine Or.inl ?_
    rw [request, stateOf_bind_pure]
    exact within_sameCourse _ m
  | load terms stack next => exact Or.inr (Or.inl ⟨terms, stack, next, rfl, rfl⟩)
  | step next =>
    refine Or.inr (Or.inr ⟨next, rfl, ?_⟩)
    rw [request, stateOf_bind_pure]

/-- What belongs to the course of a run and is kept by loading and by nested steps, is kept by
scripts. -/
theorem request_keeps {P : Machine σ → Prop} (hcourse : ∀ {m m'}, SameCourse m m' → P m → P m')
    (hload : ∀ {m} terms stack, P m → P (m.load terms stack))
    (hagain : ∀ {m}, P m → P (stateOf (again m))) (script : Script) {m : Machine σ} (hm : P m) :
    P (stateOf (script.request again m)) := by
  rcases request_cases again script m with hsame | ⟨terms, stack, next, -, hrequest⟩ |
    ⟨next, -, hstate⟩
  · exact hcourse hsame hm
  · rw [hrequest]
    exact hload terms stack hm
  · rw [hstate]
    exact hagain hm

theorem Moment.Reaches.invariant {P : Machine σ → Prop} {a b : Moment σ}
    (h : Moment.Reaches again a b) (hcourse : ∀ {m m'}, SameCourse m m' → P m → P m')
    (hload : ∀ {m} terms stack, P m → P (m.load terms stack))
    (hagain : ∀ {m}, P m → P (stateOf (again m)))
    (ha : P a.machine) : P b.machine := by
  induction h with
  | refl => exact ha
  | @tail before after _ hnext ih =>
    have hkeeps := request_keeps hcourse hload hagain before.script ih
    rw [show before.script.request again before.machine = .ok after.script after.machine from hnext]
      at hkeeps
    exact hkeeps

theorem perform_keeps {P : Machine σ → Prop} (again : Run σ Progress)
    (hcourse : ∀ {m m'}, SameCourse m m' → P m → P m')
    (hload : ∀ {m} terms stack, P m → P (m.load terms stack))
    (hagain : ∀ {m}, P m → P (stateOf (again m))) (script : Script) {m : Machine σ} (hm : P m) :
    P (stateOf (script.perform again m)) := by
  obtain ⟨last, hreaches, hok | ⟨raised, after, hrequest, herror⟩⟩ :=
    perform_cases again script m
  · rw [hok]
    exact hreaches.invariant hcourse hload hagain hm
  · have hlast := request_keeps hcourse hload hagain last.script
      (hreaches.invariant hcourse hload hagain hm)
    rw [hrequest] at hlast
    rw [herror]
    exact hlast

/-! ## Scripts without nested steps -/

theorem Moment.Next.stepFree {a b : Moment σ} (h : Moment.Next again a b)
    (ha : a.script.StepFree) : b.script.StepFree := by
  obtain ⟨script, m⟩ := a
  obtain ⟨left, after⟩ := b
  have hnext : script.request again m = .ok left after := h
  cases script with
  | done =>
    cases hnext
    exact ha
  | observe =>
    cases hnext
    exact ha _
  | raise => cases hnext
  | push | splice | define | forget | load | write =>
    obtain ⟨-, rfl⟩ := exists_of_bind_pure hnext
    exact ha
  | pop | take =>
    obtain ⟨answer, rfl⟩ := exists_of_bind_pure hnext
    exact ha answer
  | step => exact absurd ha id

theorem request_stepFree (again' : Run σ Progress) {script : Script} (h : script.StepFree) :
    script.request again = script.request again' := by
  cases script with
  | step => exact absurd h id
  | _ => rfl

/-- A script without nested steps comes to the same moments whatever step it may take. -/
theorem Moment.Reaches.stepFree (again' : Run σ Progress) {a b : Moment σ}
    (h : Moment.Reaches again a b) (ha : a.script.StepFree) :
    Moment.Reaches again' a b ∧ b.script.StepFree := by
  induction h with
  | refl => exact ⟨.refl, ha⟩
  | @tail before after _ hnext ih =>
    obtain ⟨hreaches, hbefore⟩ := ih
    have hnext' : Moment.Next again' before after := by
      rw [Moment.Next, request_stepFree again hbefore]
      exact hnext
    exact ⟨hreaches.tail hnext', hnext.stepFree hbefore⟩

/-- A script without nested steps does not depend on the step that it may take. -/
theorem perform_stepFree (again' : Run σ Progress) {script : Script} (h : script.StepFree) :
    script.perform again = script.perform again' := by
  induction script with
  | done | raise => rfl
  | push _ next ih | splice _ next ih | define _ _ next ih | forget next ih | load _ _ next ih
  | write _ next ih => simp only [perform, ih h]
  | pop next ih | take _ next ih | observe next ih =>
    have hnext := fun answer => ih answer (h answer)
    simp only [perform, hnext]
  | step next => exact absurd h id

end Script

namespace Machine

variable {again : Run σ Progress}

/-! ## What a term can do -/

theorem bind_sameCourse {x : Run σ α} {f : α → Run σ β} (hx : ∀ m, SameCourse m (stateOf (x m)))
    (hf : ∀ a m, SameCourse m (stateOf (f a m))) (m : Machine σ) :
    SameCourse m (stateOf ((x >>= f) m)) := by
  have hfirst := hx m
  rw [bind_apply]
  cases hresult : x m with
  | error raised after =>
    rw [hresult] at hfirst
    exact hfirst
  | ok a after =>
    rw [hresult] at hfirst
    exact hfirst.trans (hf a after)

theorem dispatch_entry [World σ] {m : Machine σ} {name : String} {entry : Entry}
    (hresolve : m.resolve name = some entry) (rest : List String)
    (hdepth : entry.minDepth ≤ m.memory.stack.length) :
    dispatch again name rest m =
      (do entry.perform again; conclude; return entry.category : Run σ Category)
        { m with memory := m.taken name rest } := by
  have hholds : holds entry.minDepth m.memory.stack = true := (holds_iff _ _).mpr hdepth
  unfold dispatch
  simp only [bind_apply, get_apply, trace_apply, noted_looked, hresolve, hholds, if_true,
    modify_apply, noted_taken]

theorem dispatch_refused [World σ] (again : Run σ Progress) {m : Machine σ} {name : String}
    (rest : List String)
    (h : ∀ entry, m.resolve name = some entry → ¬ entry.minDepth ≤ m.memory.stack.length) :
    ∃ raised, dispatch again name rest m = .error raised { m with memory := m.looked } := by
  unfold dispatch
  simp only [bind_apply, get_apply, trace_apply, noted_looked]
  cases hresolve : m.resolve name with
  | none => exact ⟨_, rfl⟩
  | some entry =>
    have hholds : ¬ holds entry.minDepth m.memory.stack = true := fun hholds =>
      h entry hresolve ((holds_iff _ _).mp hholds)
    simp only [hholds]
    exact ⟨_, rfl⟩

/-- A term leaves the course of the run as it was, unless it names a host operation: then the script
of the operation is carried out before the step is concluded. -/
theorem dispatch_cases [World σ] (again : Run σ Progress) (m : Machine σ) (name : String)
    (rest : List String) :
    SameCourse m (stateOf (dispatch again name rest m)) ∨
      ∃ operation script, m.resolve name = some (.operation operation) ∧
        operation.effect = .hosted script ∧ operation.minDepth ≤ m.memory.stack.length ∧
        dispatch again name rest m =
          (do script.perform again; conclude; return operation.category : Run σ Category)
            { m with memory := m.taken name rest } := by
  have htask : ∀ (task : Task σ Unit) (category : Category) (m' : Machine σ),
      SameCourse m' (stateOf
        ((do Run.within task; conclude; return category : Run σ Category) m')) := by
    intro task category
    exact bind_sameCourse (within_sameCourse task) fun _ =>
      bind_sameCourse conclude_sameCourse fun _ => SameCourse.refl
  have htaken := sameCourse_withMemory m (m.taken name rest)
  -- A term is refused if it is unknown or if the stack is not deep enough; else it is performed.
  by_cases hentry : ∃ entry, m.resolve name = some entry ∧
      entry.minDepth ≤ m.memory.stack.length
  · obtain ⟨entry, hresolve, hdepth⟩ := hentry
    rw [dispatch_entry hresolve rest hdepth]
    cases entry with
    | definition d => exact Or.inl (htaken.trans (htask (Task.splice d.body) _ _))
    | operation o =>
      simp only [Entry.perform, Entry.category]
      cases heffect : o.effect with
      | builtin b => exact Or.inl (htaken.trans (htask b.perform _ _))
      | hosted script => exact Or.inr ⟨o, script, hresolve, heffect, hdepth, rfl⟩
  · obtain ⟨raised, hrefused⟩ := dispatch_refused again rest
      fun entry hresolve hdepth => hentry ⟨entry, hresolve, hdepth⟩
    rw [hrefused]
    exact Or.inl (sameCourse_withMemory m _)

/-- What a step does after the script of its term leaves the course of the run as it was. -/
theorem concluded_sameCourse [World σ] (script : Run σ Unit) (category : Category)
    (m : Machine σ) :
    SameCourse (stateOf (script m))
      (stateOf ((do script; conclude; return category : Run σ Category) m)) := by
  rw [bind_apply]
  cases script m with
  | error raised after => exact SameCourse.refl after
  | ok _ after =>
    exact bind_sameCourse (f := fun _ => pure category) conclude_sameCourse
      (fun _ => SameCourse.refl) after

/-- What belongs to the course of a run and is kept by the script of a term, is kept by the term. -/
theorem dispatch_keeps [World σ] {P : Machine σ → Prop}
    (hcourse : ∀ {m m'}, SameCourse m m' → P m → P m') {m : Machine σ} {name : String}
    (rest : List String)
    (hperform : ∀ operation script, m.resolve name = some (.operation operation) →
      operation.effect = .hosted script → ∀ m', P m' → P (stateOf (script.perform again m')))
    (hm : P m) : P (stateOf (dispatch again name rest m)) := by
  rcases dispatch_cases again m name rest with
    hsame | ⟨operation, script, hresolve, heffect, -, hdispatch⟩
  · exact hcourse hsame hm
  · have hstart := hcourse (sameCourse_withMemory m (m.taken name rest)) hm
    rw [hdispatch]
    exact hcourse (concluded_sameCourse _ _ _)
      (hperform operation script hresolve heffect _ hstart)

/-- In its step the machine carries out a script, which comes to the moment. -/
def Performs (again : Run σ Progress) (m : Machine σ) (moment : Script.Moment σ) : Prop :=
  ∃ name rest operation script, m.phase.isFinal = false ∧ m.memory.pending = name :: rest ∧
    m.resolve name = some (.operation operation) ∧ operation.effect = .hosted script ∧
    operation.minDepth ≤ m.memory.stack.length ∧
    Script.Moment.Reaches again
      ⟨script, { m with memory := m.taken name rest, phase := .running }⟩ moment

/-! ## What a step makes of its term -/

/-- What a step makes of the result of its term: an action suspends the run and an error ends it,
where the phase that the term has left allows for that. -/
def report : EStateM.Result Raised (Machine σ) Category →
    EStateM.Result Raised (Machine σ) Progress
  | .ok category after =>
    if category = .action then
      match after.phase.next? .suspend with
      | some phase => .ok .paused { after with phase := phase }
      | none => .error (.failure (.refused .suspend after.phase)) after
    else .ok .ongoing after
  | .error raised after =>
    match raised.ending? with
    | none => .error raised after
    | some fault =>
      match after.phase.next? .fail with
      | some phase =>
        .ok .failed
          { after with
            memory :=
              { after.memory with
                journal := .log (.failed after.steps fault) :: after.memory.journal }
            error := some fault
            phase := phase }
      | none =>
        .error (.failure (.refused .fail after.phase)) { after with error := some fault }

theorem report_ok_running {category : Category} {after : Machine σ} (h : after.phase = .running) :
    report (.ok category after) = .ok category.progress { after with phase := category.phase } := by
  simp only [report, Category.progress, Category.phase, h, Phase.next?]
  split
  · rfl
  · rw [← h]

theorem report_error_running {raised : Raised} {after : Machine σ} (h : after.phase = .running) :
    report (.error raised after) = settle raised after := by
  simp only [report, settle, h, Phase.next?]
  cases raised.ending? <;> rfl

theorem failWith_apply (fault : Fault) (m : Machine σ) :
    failWith fault m = report (.error (.fault fault) m) := by
  unfold failWith report
  simp only [bind_apply, modify_apply, Run.fire, Raised.ending?]
  cases m.phase.next? .fail <;> rfl

/-- The step of a run that has a term to execute, with host operations or without. -/
theorem stepWith_term [World σ] (again : Run σ Progress) {m : Machine σ}
    (hlive : m.phase.isFinal = false) {name : String} {rest : List String}
    (hpending : m.memory.pending = name :: rest) :
    stepWith again m = report (dispatch again name rest { m with phase := .running }) := by
  rw [stepWith_live again hlive]
  unfold executeNext
  simp only [bind_apply, get_apply, hpending, Run.attempt]
  cases dispatch again name rest { m with phase := .running } with
  | ok category after =>
    simp only [report]
    split
    · simp only [bind_apply, Run.fire]
      cases after.phase.next? .suspend <;> rfl
    · rfl
  | error raised after =>
    cases raised with
    | fault fault => exact failWith_apply fault after
    | failure failure => exact failWith_apply (.hostFailure failure true) after
    | interrupt | exhausted => rfl

end Machine

end StackRover
