import StackRover.Proofs.FailedSteps

/-!
# Executing one built-in operation

The step of a built-in operation whose name stands for it, in any machine and any world: host
operations may be active, and notifications may raise something. Either the effect of the operation
is done in full, and then only a notification or the limit can still fail the step; or the operation
raises something, and the step fails with it before anything is notified or counted.

* `Machine.before`: the machine that has the operation in front of its program.
* `Machine.Does`, `Machine.FailsAt`: the two outcomes.
* `does_of_perform`, `failsAt_of_perform`: which of them it is, from the effect of the operation.
* `Does.step_eq`: in a quiet world the effect is all there is to the step.
* `Does.stack_eq`, `FailsAt.stack_eq`: the stack that either outcome leaves.
-/

namespace StackRover

variable {σ : Type}

/-! ## Notifications -/

/-- Neither of the two notifications raises something. -/
structure World.Accepts [World σ] (world : σ) (stack : List Int) (steps : Nat) : Prop where
  stackChanged : (World.stackChanged stack world).result = .ok ()
  stepped : (World.stepped steps (World.stackChanged stack world).world).result = .ok ()

/-- The world after the notifications; there is no second one if the first raises something. -/
def World.notified [World σ] (world : σ) (stack : List Int) (steps : Nat) : σ :=
  let told := World.stackChanged stack world
  match told.result with
  | .ok _ => (World.stepped steps told.world).world
  | .error _ => told.world

/-- The memory after the notifications. -/
def Memory.notified [World σ] (m : Memory σ) (steps : Nat) (journal : List Event) : Memory σ :=
  { m with world := World.notified m.world m.stack steps, journal := journal }

theorem QuietHooks.accepts [World σ] (hq : QuietHooks σ) (world : σ) (stack : List Int)
    (steps : Nat) : World.Accepts world stack steps := by
  refine ⟨?_, ?_⟩
  · rw [hq.stackChanged]
    rfl
  · rw [hq.stepped]
    rfl

theorem QuietHooks.notified [World σ] (hq : QuietHooks σ) (m : Memory σ) (steps : Nat)
    (journal : List Event) : m.notified steps journal = { m with journal := journal } := by
  have hworld : World.notified m.world m.stack steps = m.world := by
    simp only [World.notified, hq.stackChanged, hq.stepped, Reply.pure]
  rw [Memory.notified, hworld]

namespace Machine

/-- The machine with the operation in front of its program. -/
def before (m : Machine σ) (builtin : Builtin) : Machine σ :=
  { m with memory := { m.memory with pending := builtin.name :: m.memory.pending } }

/-- The run is live, and the name of the operation stands for it: it is active, and no definition
stands in for it. -/
structure Offers (m : Machine σ) (builtin : Builtin) : Prop where
  live : m.phase.isFinal = false
  resolve : m.resolve builtin.name = some (.operation builtin.operation)

/-- Executing the operation has its effect in full, and that leaves the given memory, apart from the
journal. The step succeeds if the notifications raise nothing and the limit allows for it. -/
structure Does [World σ] (m : Machine σ) (builtin : Builtin) (memory : Memory σ) : Prop where
  leaves : ∃ journal,
    (stateOf (step (m.before builtin))).memory = memory.notified (m.steps + 1) journal
  succeeds : World.Accepts memory.world memory.stack (m.steps + 1) →
    ((m.steps + 1 : Nat) : Int) ≤ m.maxSteps →
    ∃ journal, step (m.before builtin) = .ok builtin.category.progress
      { m with
        memory := memory.notified (m.steps + 1) journal
        steps := m.steps + 1
        phase := builtin.category.phase }

/-- Executing the operation fails with the fault, and leaves the given memory, apart from the
journal. The world is not notified, and the term is not counted. -/
def FailsAt [World σ] (m : Machine σ) (builtin : Builtin) (fault : Fault) (memory : Memory σ) :
    Prop :=
  ∃ last, step (m.before builtin) = .ok .failed last ∧ m.FailedOn memory m.steps fault last

variable [World σ] {m : Machine σ} {builtin : Builtin} {memory : Memory σ}

/-! ## From the effect to the step -/

/-- The step of an operation is what becomes of its effect. -/
theorem step_builtin (hlive : m.phase.isFinal = false) {rest : List String}
    (hpending : m.memory.pending = builtin.name :: rest)
    (hresolve : m.resolve builtin.name = some (.operation builtin.operation))
    (hdepth : builtin.minDepth ≤ m.memory.stack.length) :
    step m = m.wrapUp
      (match builtin.perform (m.taken builtin.name rest) with
        | .ok _ after => .ok builtin.category after
        | .error raised after => .error raised after) := by
  let taken := { m with phase := .running }.taken builtin.name rest
  have htaken : m.taken builtin.name rest = taken := rfl
  have hdepth' : (Entry.operation builtin.operation).minDepth ≤ m.memory.stack.length :=
    Int.ofNat_le.mpr hdepth
  have hentry : Entry.perform (stepAt (nestingLimit - 1)) (.operation builtin.operation)
      { m with memory := taken, phase := .running } =
        Run.within builtin.perform { m with memory := taken, phase := .running } := rfl
  unfold Run.within at hentry
  apply step_of_dispatch hlive hpending
  rw [dispatch_entry (m := { m with phase := .running }) hresolve _ hdepth', htaken]
  cases hperform : builtin.perform taken with
  | error raised after =>
    simp only [hperform] at hentry
    rw [bind_apply_error hentry]
  | ok _ after =>
    simp only [hperform] at hentry
    rw [bind_apply_ok hentry, bind_apply]
    dsimp only
    cases conclude { m with memory := after, phase := .running } <;> rfl

/-- The operation finds the memory as it was; only lines of the log may have been added. -/
theorem step_before (h : m.Offers builtin) (hdepth : builtin.minDepth ≤ m.memory.stack.length) :
    ∃ journal, step (m.before builtin) = (m.before builtin).wrapUp
      (match builtin.perform { m.memory with journal := journal } with
        | .ok _ after => .ok builtin.category after
        | .error raised after => .error raised after) :=
  ⟨_, step_builtin (m := m.before builtin) h.live rfl h.resolve hdepth⟩

/-- What is left of the memory once the world was notified, whether or not the step succeeds. -/
theorem wrapUp_leaves (m : Machine σ) (category : Category) (memory : Memory σ) :
    ∃ journal, (stateOf (m.wrapUp (.ok category memory))).memory =
      memory.notified (m.steps + 1) journal := by
  have hsettle : ∀ (raised : Raised) (machine : Machine σ), ∃ journal,
      (stateOf (settle raised machine)).memory = { machine.memory with journal := journal } := by
    intro raised machine
    unfold settle
    cases raised.ending? with
    | none => exact ⟨machine.memory.journal, rfl⟩
    | some fault => exact ⟨_, rfl⟩
  simp only [wrapUp, Task.ask, Memory.notified, World.notified]
  cases htold : (World.stackChanged memory.stack memory.world).result with
  | error raised =>
    obtain ⟨journal, hjournal⟩ := hsettle raised _
    exact ⟨journal, hjournal⟩
  | ok _ =>
    simp only
    cases hcounted : (World.stepped (m.steps + 1)
        (World.stackChanged memory.stack memory.world).world).result with
    | error raised =>
      obtain ⟨journal, hjournal⟩ := hsettle raised _
      exact ⟨journal, hjournal⟩
    | ok _ =>
      simp only
      split
      · obtain ⟨journal, hjournal⟩ := hsettle _ _
        exact ⟨journal, hjournal⟩
      · exact ⟨_, rfl⟩

theorem wrapUp_succeeds (m : Machine σ) (category : Category) {memory : Memory σ}
    (haccepts : World.Accepts memory.world memory.stack (m.steps + 1))
    (hroom : ((m.steps + 1 : Nat) : Int) ≤ m.maxSteps) :
    ∃ journal, m.wrapUp (.ok category memory) = .ok category.progress
      { m with
        memory := memory.notified (m.steps + 1) journal
        steps := m.steps + 1
        phase := category.phase } := by
  have hlimit : ¬ m.maxSteps < ((m.steps + 1 : Nat) : Int) := by omega
  simp only [wrapUp, Task.ask, Memory.notified, World.notified, haccepts.stackChanged,
    haccepts.stepped]
  rw [if_neg hlimit]
  exact ⟨_, rfl⟩

theorem does_of_perform (h : m.Offers builtin) (hdepth : builtin.minDepth ≤ m.memory.stack.length)
    (hperform : ∀ journal, ∃ journal', builtin.perform { m.memory with journal := journal } =
      .ok () { memory with journal := journal' }) : m.Does builtin memory := by
  obtain ⟨journal, hstep⟩ := step_before h hdepth
  obtain ⟨journal', heffect⟩ := hperform journal
  rw [heffect] at hstep
  refine ⟨?_, fun haccepts hroom => ?_⟩
  · rw [hstep]
    exact wrapUp_leaves (m.before builtin) builtin.category _
  · rw [hstep]
    exact wrapUp_succeeds (m.before builtin) builtin.category haccepts hroom

theorem failsAt_of_perform (h : m.Offers builtin)
    (hdepth : builtin.minDepth ≤ m.memory.stack.length) {raised : Raised} {fault : Fault}
    (hperform : ∀ journal, ∃ journal', builtin.perform { m.memory with journal := journal } =
      .error raised { memory with journal := journal' }) (hends : raised.ending? = some fault) :
    m.FailsAt builtin fault memory := by
  obtain ⟨journal, hstep⟩ := step_before h hdepth
  obtain ⟨journal', heffect⟩ := hperform journal
  rw [heffect] at hstep
  have hfails : (m.before builtin).wrapUp (.error raised { memory with journal := journal' }) =
      .ok .failed
        { m with
          memory := { memory with journal := .log (.failed m.steps fault) :: journal' }
          error := some fault
          phase := .failed } := by
    simp only [wrapUp, settle, hends]
    rfl
  exact ⟨_, hstep.trans hfails, rfl⟩

/-! ## What is left -/

/-- In a quiet world only the limit can still fail the step. -/
theorem Does.step_eq (hq : QuietHooks σ) (h : m.Does builtin memory)
    (hroom : ((m.steps + 1 : Nat) : Int) ≤ m.maxSteps) :
    ∃ journal, step (m.before builtin) = .ok builtin.category.progress
      { m with
        memory := { memory with journal := journal }
        steps := m.steps + 1
        phase := builtin.category.phase } := by
  obtain ⟨journal, hstep⟩ := h.succeeds (hq.accepts _ _ _) hroom
  rw [hq.notified] at hstep
  exact ⟨journal, hstep⟩

theorem Does.stack_eq (h : m.Does builtin memory) :
    (stateOf (step (m.before builtin))).memory.stack = memory.stack := by
  obtain ⟨journal, hleaves⟩ := h.leaves
  rw [hleaves]
  rfl

theorem FailsAt.stack_eq {fault : Fault} (h : m.FailsAt builtin fault memory) :
    (stateOf (step (m.before builtin))).memory.stack = memory.stack := by
  obtain ⟨last, hstep, hlast⟩ := h
  rw [hstep, stateOf_ok, hlast]

end Machine

end StackRover
