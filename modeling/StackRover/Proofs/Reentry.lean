import StackRover.Proofs.HostCalls
import StackRover.World.Void

/-!
# Host operations that step the machine

The script of a host operation may step the machine that is executing it, and so suspend, complete
or fail the run before its own step has ended. What is left of the agreement between phase and error
then is that a run which has failed has an error, and that a run which has an error is over. The
change of phase that the outer step ends with may be refused; nothing else escapes from a step, and
only where a nested step has changed the phase.

* `stepAt_coherent`: one step, with steps nested to any depth.
* `stepAt_escape`: what escapes from a step, and why.
* `serve_reentrant`: every sequence of calls.
-/

namespace StackRover

variable {σ : Type}

open Script (Moment)

namespace Machine

/-- A run that has failed has an error, and a run that has an error is over. -/
structure Coherent (m : Machine σ) : Prop where
  failed : m.phase = .failed → m.error ≠ none
  ended : m.error ≠ none → m.phase = .completed ∨ m.phase = .failed

/-- In its step the first machine takes a nested step on the second. -/
def Nests [World σ] (depth : Nat) (m inner : Machine σ) : Prop :=
  ∃ next, m.Performs (stepAt depth) ⟨.step next, inner⟩

/-- In its step the first machine comes to the second while a script is carried out, be it that of
its own term or that of a nested step. -/
inductive Visits [World σ] : Nat → Machine σ → Machine σ → Prop
  | here {depth : Nat} {m : Machine σ} {moment : Moment σ}
      (h : m.Performs (stepAt depth) moment) : Visits (depth + 1) m moment.machine
  | nested {depth : Nat} {m inner visited : Machine σ} (h : m.Nests depth inner)
      (hinner : Visits depth inner visited) : Visits (depth + 1) m visited

variable {m : Machine σ} {again : Run σ Progress}

/-! ## The invariant -/

theorem Coherent.of_sameCourse {m' : Machine σ} (hsame : SameCourse m m') (h : m.Coherent) :
    m'.Coherent := by
  obtain ⟨hfailed, hended⟩ := h
  rw [← hsame.phase, ← hsame.error] at hfailed hended
  exact ⟨hfailed, hended⟩

theorem load_coherent (m : Machine σ) (terms : List String) (stack : List Int) :
    (m.load terms stack).Coherent := by
  refine ⟨fun hfailed => ?_, fun herror => absurd rfl herror⟩
  cases hfailed

theorem Coherent.error_of_live (h : m.Coherent) (hlive : m.phase.isFinal = false) :
    m.error = none := by
  apply Decidable.byContradiction
  intro herror
  rcases h.ended herror with hphase | hphase
  · rw [hphase] at hlive
    cases hlive
  · rw [hphase] at hlive
    cases hlive

theorem Coherent.resumed (h : m.Coherent) (hlive : m.phase.isFinal = false) :
    ({ m with phase := .running } : Machine σ).Coherent := by
  have herror := h.error_of_live hlive
  refine ⟨fun hfailed => ?_, fun hsome => absurd herror hsome⟩
  cases hfailed

/-- The change of phase after a term, or its refusal, leaves a coherent machine. -/
theorem report_coherent {result : EStateM.Result Raised (Machine σ) Category}
    (h : (stateOf result).Coherent) : (stateOf (report result)).Coherent := by
  cases result with
  | ok category after =>
    rw [stateOf_ok] at h
    simp only [report]
    split
    · cases hphase : after.phase with
      | running =>
        have herror := h.error_of_live (by rw [hphase]; rfl)
        refine ⟨fun hfailed => ?_, fun hsome => absurd herror hsome⟩
        cases hfailed
      | suspended | completed | failed => exact h
    · exact h
  | error raised after =>
    rw [stateOf_error] at h
    simp only [report]
    cases raised.ending? with
    | none => exact h
    | some fault =>
      have hset : (some fault : Option Fault) ≠ none := Option.some_ne_none fault
      cases hphase : after.phase with
      | running | suspended => exact ⟨fun _ => hset, fun _ => Or.inr rfl⟩
      | completed => exact ⟨fun _ => hset, fun _ => Or.inl rfl⟩
      | failed => exact ⟨fun _ => hset, fun _ => Or.inr rfl⟩

theorem stepWith_coherent [World σ]
    (hagain : ∀ {m : Machine σ}, m.Coherent → (stateOf (again m)).Coherent) (h : m.Coherent) :
    (stateOf (stepWith again m)).Coherent := by
  cases hfinal : m.phase.isFinal with
  | true =>
    rw [stepWith_final again hfinal]
    exact h
  | false =>
    cases hpending : m.memory.pending with
    | nil =>
      rw [stepWith_end again hfinal hpending]
      refine ⟨fun hfailed => ?_, fun _ => Or.inl rfl⟩
      cases hfailed
    | cons name rest =>
      rw [stepWith_term again hfinal hpending]
      apply report_coherent
      refine dispatch_keeps (P := Coherent) Coherent.of_sameCourse rest ?_ (h.resumed hfinal)
      intro operation script _ _ m' hm'
      exact Script.perform_keeps again Coherent.of_sameCourse (fun _ _ _ => load_coherent _ _ _)
        hagain script hm'

/-- A step leaves a coherent machine, whatever steps are nested in it. -/
theorem stepAt_coherent [World σ] (depth : Nat) (h : m.Coherent) :
    (stateOf (stepAt depth m)).Coherent := by
  induction depth generalizing m with
  | zero => exact h
  | succ depth ih => exact stepWith_coherent ih h

/-- So is every machine that a step comes to while scripts are carried out. -/
theorem Visits.coherent [World σ] {depth : Nat} {visited : Machine σ}
    (hvisits : m.Visits depth visited) (h : m.Coherent) : visited.Coherent := by
  have hmoment : ∀ {depth : Nat} {m : Machine σ} {moment : Moment σ},
      m.Performs (stepAt depth) moment → m.Coherent → moment.machine.Coherent := by
    rintro depth m moment ⟨name, rest, operation, script, hlive, -, -, -, -, hreaches⟩ hm
    refine hreaches.invariant Coherent.of_sameCourse (fun _ _ _ => load_coherent _ _ _)
      (stepAt_coherent depth) ?_
    exact (hm.resumed hlive).of_sameCourse (sameCourse_withMemory _ _)
  induction hvisits with
  | here hperforms => exact hmoment hperforms h
  | nested hnests _ ih =>
    obtain ⟨next, hperforms⟩ := hnests
    exact ih (hmoment hperforms h)

end Machine

/-! ## What escapes from a step -/

namespace Script

variable {m : Machine σ} {again : Run σ Progress} {phase : Phase}

/-- A request that brings about a phase other than `running` is a nested step. -/
theorem step_of_request {script : Script} (hrunning : phase ≠ .running) (hbefore : m.phase ≠ phase)
    (hafter : (stateOf (script.request again m)).phase = phase) :
    ∃ next, script = .step next ∧ (stateOf (again m)).phase = phase := by
  rcases request_cases again script m with hsame | ⟨terms, stack, next, -, hrequest⟩ |
    ⟨next, hscript, hstate⟩
  · exact absurd (hsame.phase.symm.trans hafter) hbefore
  · rw [hrequest] at hafter
    exact absurd hafter.symm hrunning
  · rw [hstate] at hafter
    exact ⟨next, hscript, hafter⟩

/-- A phase other than `running` comes about by a nested step while a script is carried out. -/
theorem Moment.Reaches.exists_step {a b : Moment σ} (h : Moment.Reaches again a b)
    (hrunning : phase ≠ .running) (hbefore : a.machine.phase ≠ phase)
    (hafter : b.machine.phase = phase) :
    ∃ next inner, Moment.Reaches again a ⟨.step next, inner⟩ ∧ inner.phase ≠ phase ∧
      (stateOf (again inner)).phase = phase := by
  induction h with
  | refl => exact absurd hafter hbefore
  | @tail last b hreaches hnext ih =>
    -- The phase has come about before the last request, or by it.
    by_cases hlast : last.machine.phase = phase
    · exact ih hlast
    · have hrequest : (stateOf (last.script.request again last.machine)).phase = phase := by
        rw [show last.script.request again last.machine = .ok b.script b.machine from hnext]
        exact hafter
      obtain ⟨next, hscript, hstep⟩ := step_of_request hrunning hlast hrequest
      refine ⟨next, last.machine, ?_, hlast, hstep⟩
      rw [← hscript]
      exact hreaches

theorem exists_step_of_perform {script : Script} (hrunning : phase ≠ .running)
    (hbefore : m.phase ≠ phase) (hafter : (stateOf (script.perform again m)).phase = phase) :
    ∃ next inner, Moment.Reaches again ⟨script, m⟩ ⟨.step next, inner⟩ ∧ inner.phase ≠ phase ∧
      (stateOf (again inner)).phase = phase := by
  obtain ⟨last, hreaches, hok | ⟨raised, after, hrequest, herror⟩⟩ := perform_cases again script m
  · rw [hok] at hafter
    exact hreaches.exists_step hrunning hbefore hafter
  · by_cases hlast : last.machine.phase = phase
    · exact hreaches.exists_step hrunning hbefore hlast
    · have hphase : (stateOf (last.script.request again last.machine)).phase = phase := by
        rw [hrequest]
        rw [herror] at hafter
        exact hafter
      obtain ⟨next, hscript, hstep⟩ := step_of_request hrunning hlast hphase
      refine ⟨next, last.machine, ?_, hlast, hstep⟩
      rw [← hscript]
      exact hreaches

end Script

namespace Machine

variable {m : Machine σ} {again : Run σ Progress}

/-- A refused change of phase is the only failure that a step lets out. -/
theorem report_escape {result : EStateM.Result Raised (Machine σ) Category} {raised : Raised}
    {next : Machine σ} (h : report result = .error raised next) :
    raised.ending? = none ∨
      (∃ transition, raised = .failure (.refused transition next.phase)) ∧
        next.phase ≠ .running ∧ next.phase = (stateOf result).phase := by
  cases result with
  | ok category after =>
    simp only [report] at h
    split at h
    · cases hphase : after.phase with
      | running =>
        rw [hphase] at h
        cases h
      | suspended | completed | failed =>
        simp only [hphase, Phase.next?] at h
        cases h
        rw [stateOf_ok, hphase]
        exact Or.inr ⟨⟨_, rfl⟩, by decide, rfl⟩
    · cases h
  | error raised' after =>
    simp only [report] at h
    cases hending : raised'.ending? with
    | none =>
      rw [hending] at h
      cases h
      exact Or.inl hending
    | some fault =>
      rw [hending] at h
      cases hphase : after.phase with
      | running | suspended =>
        simp only [hphase, Phase.next?] at h
        cases h
      | completed | failed =>
        simp only [hphase, Phase.next?] at h
        cases h
        rw [stateOf_error, hphase]
        refine Or.inr ⟨⟨_, rfl⟩, fun hrunning => ?_, rfl⟩
        cases hrunning

/-- A term that leaves the run in a phase other than `running` has taken a nested step, which
brought about that phase. -/
theorem nests_of_dispatch [World σ] {depth : Nat} {name : String} {rest : List String}
    (hlive : m.phase.isFinal = false) (hpending : m.memory.pending = name :: rest) {phase : Phase}
    (hrunning : phase ≠ .running)
    (hafter :
      (stateOf (dispatch (stepAt depth) name rest { m with phase := .running })).phase = phase) :
    ∃ inner, m.Nests depth inner ∧ inner.phase ≠ phase ∧
      (stateOf (stepAt depth inner)).phase = phase := by
  rcases dispatch_cases (stepAt depth) { m with phase := .running } name rest with
    hsame | ⟨operation, script, hresolve, heffect, hdepth, hdispatch⟩
  · exact absurd (hafter.symm.trans hsame.phase) hrunning
  · have hperform : (stateOf (script.perform (stepAt depth)
        { m with memory := m.taken name rest, phase := .running })).phase = phase := by
      rw [hdispatch] at hafter
      exact (concluded_sameCourse _ _ _).phase.symm.trans hafter
    obtain ⟨next, inner, hreaches, hbefore, hstep⟩ :=
      Script.exists_step_of_perform hrunning (Ne.symm hrunning) hperform
    exact ⟨inner, ⟨next, name, rest, operation, script, hlive, hpending, hresolve, heffect, hdepth,
      hreaches⟩, hbefore, hstep⟩

/-- Apart from what ends no run, only the refusal of a change of phase escapes from a step, and only
where a nested step has brought about the phase that the run is left in. -/
theorem stepAt_escape [World σ] {depth : Nat} {raised : Raised} {next : Machine σ}
    (h : stepAt (depth + 1) m = .error raised next) :
    raised.ending? = none ∨
      (∃ transition, raised = .failure (.refused transition next.phase)) ∧ next.phase ≠ .running ∧
        ∃ inner, m.Nests depth inner ∧ inner.phase ≠ next.phase ∧
          (stateOf (stepAt depth inner)).phase = next.phase := by
  rw [stepAt] at h
  cases hfinal : m.phase.isFinal with
  | true =>
    rw [stepWith_final _ hfinal] at h
    cases h
  | false =>
    cases hpending : m.memory.pending with
    | nil =>
      rw [stepWith_end _ hfinal hpending] at h
      cases h
    | cons name rest =>
      rw [stepWith_term _ hfinal hpending] at h
      rcases report_escape h with hnone | ⟨hrefused, hrunning, hphase⟩
      · exact Or.inl hnone
      · exact Or.inr ⟨hrefused, hrunning,
          nests_of_dispatch hfinal hpending hrunning hphase.symm⟩

/-! ## Every sequence of calls -/

theorem serve_coherent [World σ] (hm : m.Coherent) (calls : List HostCall) :
    (m.serve calls).Coherent := by
  refine serve_keeps (P := Coherent) (fun call _ machine hmachine => ?_) hm
  refine HostCall.keeps (P := Coherent) Coherent.of_sameCourse ?_
    (fun _ _ terms stack _ => load_coherent _ terms stack) ?_ hmachine
  · intro machine depth h
    exact stepAt_coherent (depth + 1) h
  · intro extension _ machine h
    exact ⟨h.failed, h.ended⟩

/-- **Host operations that step the machine.** However a host sets up a machine and whatever its
operations and its calls are: after every call, and at every request of a script in between, a run
that has failed has an error, and a run that has an error is over. No fault escapes from a step; the
only failure that escapes is the refusal of a change of phase. It leaves the run suspended,
completed or failed, and a nested step within that step has brought about this phase. -/
theorem serve_reentrant [World σ] {world : σ} {options : Options}
    (hcreate : create world options = .ok m) (calls : List HostCall) :
    (m.serve calls).Coherent ∧
    (∀ depth visited, (m.serve calls).Visits depth visited → visited.Coherent) ∧
    ∀ depth next,
      (∀ fault, stepAt (depth + 1) (m.serve calls) ≠ .error (.fault fault) next) ∧
      ∀ failure, stepAt (depth + 1) (m.serve calls) = .error (.failure failure) next →
        (∃ transition, failure = .refused transition next.phase) ∧
        (next.phase = .suspended ∨ next.phase = .completed ∨ next.phase = .failed) ∧
        ∃ inner, (m.serve calls).Nests depth inner ∧ inner.phase ≠ next.phase ∧
          (stateOf (stepAt depth inner)).phase = next.phase := by
  have hnew : m.Coherent := by
    obtain ⟨operations, maxSteps, -, -, rfl⟩ := create_eq hcreate
    refine ⟨fun hfailed => ?_, fun herror => absurd rfl herror⟩
    cases hfailed
  have hcoherent := serve_coherent hnew calls
  refine ⟨hcoherent, fun depth visited hvisits => hvisits.coherent hcoherent, ?_⟩
  intro depth next
  refine ⟨fun fault hstep => ?_, fun failure hstep => ?_⟩
  · rcases stepAt_escape hstep with hnone | ⟨⟨transition, hrefused⟩, -⟩
    · cases hnone
    · cases hrefused
  · rcases stepAt_escape hstep with hnone | ⟨⟨transition, hrefused⟩, hrunning, hnests⟩
    · cases hnone
    · cases hrefused
      refine ⟨⟨transition, rfl⟩, ?_, hnests⟩
      cases hphase : next.phase with
      | running => exact absurd hphase hrunning
      | suspended => exact Or.inl rfl
      | completed => exact Or.inr (Or.inl rfl)
      | failed => exact Or.inr (Or.inr rfl)

/-- An action of the host that steps the machine: the nested step goes up and suspends the run, and
the suspension after the action itself is refused. -/
theorem serve_reentrant_suspended :
    ∃ m next : Machine Void,
      create ({} : Void)
        { additional :=
            [{ name := "TWICE", category := .action, minDepth := 0
               effect := .hosted (.step fun _ => .done) }]
          maxSteps := some 5
          debug := some false } = .ok m ∧
      stepAt 2 (m.serve [.load ["TWICE", "UP", "UP"] []]) =
        .error (.failure (.refused .suspend .suspended)) next ∧
      next.memory.pending = ["UP"] ∧ next.Coherent ∧
      ∃ inner, (m.serve [.load ["TWICE", "UP", "UP"] []]).Nests 1 inner ∧
        inner.phase ≠ .suspended ∧ (stateOf (stepAt 1 inner)).phase = .suspended := by
  let twice : Operation :=
    { name := "TWICE", category := .action, minDepth := 0
      effect := .hosted (.step fun _ => .done) }
  let m : Machine Void :=
    { memory := { dice := .cycling #[], world := {} }
      operations := Builtin.catalogue.insert twice
      maxSteps := 5
      debug := false }
  have hcreate : create ({} : Void)
      { additional := [twice], maxSteps := some 5, debug := some false } = .ok m := rfl
  have hraised : raisedOf (stepAt 2 (m.serve [.load ["TWICE", "UP", "UP"] []])) =
      some (.failure (.refused .suspend .suspended)) := by
    decide +kernel
  have hphase : (m.serve [.load ["TWICE", "UP", "UP"] [], .step 1]).phase = .suspended := by
    decide +kernel
  have hpending : (m.serve [.load ["TWICE", "UP", "UP"] [], .step 1]).memory.pending = ["UP"] := by
    decide +kernel
  -- The machine is kept folded from here on.
  generalize m = m at hcreate hraised hphase hpending
  have hstep := eq_error_of_raisedOf hraised
  obtain ⟨-, -, hescape⟩ := serve_reentrant hcreate [.load ["TWICE", "UP", "UP"] []]
  obtain ⟨hcoherent, -⟩ := serve_reentrant hcreate [.load ["TWICE", "UP", "UP"] [], .step 1]
  have hserve : stateOf (stepAt 2 (m.serve [.load ["TWICE", "UP", "UP"] []])) =
      m.serve [.load ["TWICE", "UP", "UP"] [], .step 1] :=
    (Script.stateOf_bind_pure _ _ _).symm
  rw [hserve] at hstep
  obtain ⟨-, -, inner, hnests, hbefore, hafter⟩ := (hescape 1 _).2 _ hstep
  rw [hphase] at hbefore hafter
  exact ⟨m, _, hcreate, hstep, hpending, hcoherent, inner, hnests, hbefore, hafter⟩

end Machine

end StackRover
