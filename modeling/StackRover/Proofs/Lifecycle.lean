import StackRover.Proofs.HostCalls
import StackRover.World.Recorder

/-!
# The phase and the error of a run

As long as no host operation steps the machine that is executing it, the error of a run is set
exactly when the run has failed, whatever the host asks and whatever the world and the operations
raise. Within a step the run is running and has no error: an operation can load the machine anew,
but that leaves it so. Hence the change of phase that a step ends with is always allowed, and
nothing escapes from a step but an interrupt.

* `stepWith_tame`: one step.
* `serve_lifecycle`: every sequence of calls.
-/

namespace StackRover

variable {σ : Type}

/-- The effect does not step the machine. -/
def Effect.StepFree : Effect → Prop
  | .builtin _ => True
  | .hosted script => script.StepFree

/-- The call adds no operation that steps the machine. -/
def HostCall.StepFree : HostCall → Prop
  | .add extension => extension.script.StepFree
  | _ => True

namespace Machine

/-- No operation steps the machine. -/
def StepFree (m : Machine σ) : Prop :=
  ∀ operation ∈ m.operations.entries, operation.effect.StepFree

/-- The run is running and has no error. -/
def IsOpen (m : Machine σ) : Prop := m.phase = .running ∧ m.error = none

/-- No operation steps the machine, and the error of the run is set exactly when it has failed. -/
structure Tame (m : Machine σ) : Prop where
  stepFree : m.StepFree
  error_iff : m.error ≠ none ↔ m.phase = .failed

variable {m : Machine σ}

theorem StepFree.of_sameSetup {m' : Machine σ} (h : m.StepFree) (hsame : SameSetup m m') :
    m'.StepFree := by
  intro operation hmem
  rw [hsame.operations] at hmem
  exact h operation hmem

theorem Tame.of_sameCourse {m' : Machine σ} (h : m.Tame) (hsame : SameCourse m m') : m'.Tame := by
  refine ⟨h.stepFree.of_sameSetup hsame.toSameSetup, ?_⟩
  rw [hsame.error, hsame.phase]
  exact h.error_iff

theorem Tame.load (h : m.Tame) (terms : List String) (stack : List Int) :
    (m.load terms stack).Tame :=
  ⟨h.stepFree, by simp [Machine.load]⟩

theorem Tame.addOperation (h : m.Tame) {operation : Operation}
    (hoperation : operation.effect.StepFree) : (m.addOperation operation).Tame := by
  refine ⟨?_, h.error_iff⟩
  intro other hmem
  rcases Lexicon.mem_of_mem_place hmem with rfl | hold
  · exact hoperation
  · exact h.stepFree other hold

theorem Tame.error_of_live (h : m.Tame) (hlive : m.phase.isFinal = false) : m.error = none := by
  apply Decidable.byContradiction
  intro herror
  rw [h.error_iff.mp herror] at hlive
  cases hlive

theorem mem_of_resolve {name : String} {operation : Operation}
    (h : m.resolve name = some (.operation operation)) : operation ∈ m.operations.entries := by
  unfold resolve lookup at h
  split at h
  · cases h
  · obtain ⟨found, hfound, hentry⟩ := Option.map_eq_some_iff.mp h
    cases hentry
    exact List.mem_of_find?_eq_some hfound

/-! ## One step -/

theorem IsOpen.of_sameCourse {m' : Machine σ} (hsame : SameCourse m m') (h : m.IsOpen) :
    m'.IsOpen :=
  ⟨hsame.phase.trans h.1, hsame.error.trans h.2⟩

theorem StepFree.script (hm : m.StepFree) {name : String} {operation : Operation} {script : Script}
    (hresolve : m.resolve name = some (.operation operation))
    (heffect : operation.effect = .hosted script) : script.StepFree := by
  have hfree := hm operation (mem_of_resolve hresolve)
  rw [heffect] at hfree
  exact hfree

/-- A term leaves the run open, and the machine as it was set up. -/
theorem dispatch_open [World σ] (again : Run σ Progress) (hm : m.StepFree) (hopen : m.IsOpen)
    (name : String) (rest : List String) :
    (stateOf (dispatch again name rest m)).IsOpen ∧
      SameSetup m (stateOf (dispatch again name rest m)) := by
  let P : Machine σ → Prop := fun m' => m'.IsOpen ∧ SameSetup m m'
  have hcourse : ∀ {a b : Machine σ}, SameCourse a b → P a → P b := by
    rintro a b hsame ⟨ha, hsetup⟩
    exact ⟨ha.of_sameCourse hsame, hsetup.trans hsame.toSameSetup⟩
  have hload : ∀ {a : Machine σ} terms stack, P a → P (a.load terms stack) := by
    rintro a terms stack ⟨-, hsetup⟩
    exact ⟨⟨rfl, rfl⟩, hsetup.trans ⟨rfl, rfl, rfl⟩⟩
  refine dispatch_keeps (P := P) hcourse rest ?_ ⟨hopen, ⟨rfl, rfl, rfl⟩⟩
  intro operation script hresolve heffect m' hm'
  -- The script takes no step, so it may be carried out with one that does nothing.
  rw [Script.perform_stepFree (pure .ongoing) (hm.script hresolve heffect)]
  exact Script.perform_keeps (pure .ongoing) hcourse hload (fun h => h) script hm'

/-- While the script of a term is carried out, the run is open. -/
theorem Performs.isOpen {again : Run σ Progress} {moment : Script.Moment σ}
    (h : m.Performs again moment) (hm : m.Tame) : moment.machine.IsOpen := by
  obtain ⟨name, rest, operation, script, hlive, -, hresolve, heffect, -, hreaches⟩ := h
  obtain ⟨hreaches', -⟩ :=
    hreaches.stepFree (pure .ongoing) (hm.stepFree.script hresolve heffect)
  refine hreaches'.invariant IsOpen.of_sameCourse (fun _ _ _ => ⟨rfl, rfl⟩) (fun h => h) ?_
  exact ⟨rfl, hm.error_of_live hlive⟩

/-- The change of phase after a term that leaves the run open is allowed. -/
theorem report_open {result : EStateM.Result Raised (Machine σ) Category}
    (h : (stateOf result).IsOpen) :
    SameSetup (stateOf result) (stateOf (report result)) ∧
      ((stateOf (report result)).error ≠ none ↔ (stateOf (report result)).phase = .failed) ∧
      ∀ raised next, report result = .error raised next → raised.ending? = none := by
  obtain ⟨hphase, herror⟩ := h
  cases result with
  | ok category after =>
    rw [stateOf_ok] at hphase herror
    rw [report_ok_running hphase]
    refine ⟨⟨rfl, rfl, rfl⟩, ?_, ?_⟩
    · have hlive : category.phase ≠ .failed := by
        intro hfailed
        have hfinal := Category.isFinal_phase category
        rw [hfailed] at hfinal
        cases hfinal
      simp [herror, hlive]
    · intro raised next hreport
      cases hreport
  | error raised after =>
    rw [stateOf_error] at hphase herror
    rw [report_error_running hphase]
    refine ⟨settle_sameSetup raised after, ?_⟩
    unfold settle
    cases hending : raised.ending? with
    | none =>
      refine ⟨by simp [hphase, herror], ?_⟩
      intro raised' next hreport
      cases hreport
      exact hending
    | some fault =>
      refine ⟨by simp, ?_⟩
      intro raised' next hreport
      cases hreport

/-- A step leaves a tame machine, and only what ends no run escapes from it. -/
theorem stepWith_tame [World σ] (again : Run σ Progress) (hm : m.Tame) :
    (stateOf (stepWith again m)).Tame ∧
      ∀ raised next, stepWith again m = .error raised next → raised.ending? = none := by
  cases hfinal : m.phase.isFinal with
  | true =>
    rw [stepWith_final again hfinal]
    refine ⟨hm, ?_⟩
    intro raised next h
    cases h
  | false =>
    have herror := hm.error_of_live hfinal
    cases hpending : m.memory.pending with
    | nil =>
      rw [stepWith_end again hfinal hpending]
      refine ⟨⟨hm.stepFree, by simp [herror]⟩, ?_⟩
      intro raised next h
      cases h
    | cons name rest =>
      have hopen : ({ m with phase := .running } : Machine σ).IsOpen := ⟨rfl, herror⟩
      obtain ⟨hafter, hsetup⟩ := dispatch_open (m := { m with phase := .running }) again
        hm.stepFree hopen name rest
      obtain ⟨hsetup', herror_iff, hraises⟩ := report_open hafter
      rw [stepWith_term again hfinal hpending]
      have hsame : SameSetup m { m with phase := .running } := ⟨rfl, rfl, rfl⟩
      exact ⟨⟨hm.stepFree.of_sameSetup ((hsame.trans hsetup).trans hsetup'), herror_iff⟩, hraises⟩

/-! ## Every sequence of calls -/

theorem create_tame {world : σ} {options : Options} (hcreate : create world options = .ok m)
    (hadditional : ∀ operation ∈ options.additional, operation.effect.StepFree) : m.Tame := by
  obtain ⟨operations, maxSteps, hactivate, -, rfl⟩ := create_eq hcreate
  refine ⟨?_, by simp⟩
  intro operation hmem
  rcases Lexicon.mem_of_mem_foldl_insert hmem with hadded | hactive
  · exact hadditional operation hadded
  · obtain ⟨builtin, rfl⟩ := activate_builtin hactivate hactive
    trivial

theorem serve_tame [World σ] (hm : m.Tame) {calls : List HostCall}
    (hcalls : ∀ call ∈ calls, call.StepFree) : (m.serve calls).Tame := by
  refine serve_keeps (P := Tame) (fun call hmem machine hmachine => ?_) hm
  refine HostCall.keeps (P := Tame) (fun hsame h => h.of_sameCourse hsame) ?_
    (fun _ _ terms stack h => h.load terms stack) ?_ hmachine
  · intro machine depth h
    exact (stepWith_tame (stepAt depth) h).1
  · rintro extension rfl machine h
    exact h.addOperation (hcalls _ hmem)

/-- Calls that start no new run leave the phase of a run that is over. -/
theorem serve_final [World σ] (hfinal : m.phase.isFinal = true) {calls : List HostCall}
    (hcalls : ∀ call ∈ calls, call.loads = false) : (m.serve calls).phase = m.phase := by
  refine serve_keeps (P := fun machine => machine.phase = m.phase)
    (fun call hmem machine hmachine => ?_) rfl
  refine HostCall.keeps (P := fun machine => machine.phase = m.phase)
    (fun hsame h => hsame.phase.trans h) ?_ ?_ (fun _ _ _ h => h) hmachine
  · intro machine depth h
    rw [stepAt, stepWith_final _ (by rw [h]; exact hfinal)]
    exact h
  · intro hloads
    rw [hcalls call hmem] at hloads
    cases hloads

theorem allowance_ne_zero (m : Machine σ) : m.allowance ≠ 0 := by
  unfold allowance
  exact Nat.mul_ne_zero (Nat.succ_ne_zero _) (by decide)

theorem advanceWithin_final [World σ] (hfinal : m.phase.isFinal = true) (fuel : Nat) :
    advanceWithin (fuel + 1) m = .ok (if m.phase = .completed then .finished else .failed) m := by
  rw [advanceWithin, bind_apply_ok (step_final hfinal)]
  split <;> rfl

theorem advance_final [World σ] (hfinal : m.phase.isFinal = true) :
    advance m = .ok (if m.phase = .completed then .finished else .failed) m := by
  obtain ⟨fuel, hfuel⟩ := Nat.exists_eq_add_one_of_ne_zero (allowance_ne_zero m)
  unfold advance
  rw [bind_apply_ok (get_apply m), hfuel, advanceWithin_final hfinal]

/-- Steps and turns report the progress and leave the machine as it is, whatever the requests to its
world would do: none is made. -/
def Rests (m : Machine σ) (progress : Progress) : Prop :=
  ∀ requests : World σ, @step σ requests m = .ok progress m ∧ @advance σ requests m = .ok progress m

theorem rests_of_final (hfinal : m.phase.isFinal = true) :
    m.Rests (if m.phase = .completed then .finished else .failed) :=
  fun _ => ⟨step_final hfinal, advance_final hfinal⟩

/-- **Phase and error agree, and steps leak nothing.** However a host sets up a machine and whatever
it asks of it, as long as no operation steps the machine: the error is set exactly when the run has
failed, and at every request of a script in between the run is running without an error; neither a
fault nor a failure escapes from a step; and once the run is over, steps and turns report so, change
nothing and ask nothing of the world, until a new run is started. -/
theorem serve_lifecycle [World σ] {world : σ} {options : Options}
    (hcreate : create world options = .ok m)
    (hadditional : ∀ operation ∈ options.additional, operation.effect.StepFree)
    {calls : List HostCall} (hcalls : ∀ call ∈ calls, call.StepFree) :
    (((m.serve calls).error ≠ none ↔ (m.serve calls).phase = .failed) ∧
      ∀ again moment, (m.serve calls).Performs again moment → moment.machine.IsOpen) ∧
    (∀ next, (∀ fault, step (m.serve calls) ≠ .error (.fault fault) next) ∧
      ∀ failure, step (m.serve calls) ≠ .error (.failure failure) next) ∧
    ∀ later : List HostCall, (∀ call ∈ later, call.loads = false) →
      ((m.serve calls).phase = .completed → ((m.serve calls).serve later).Rests .finished) ∧
      ((m.serve calls).phase = .failed → ((m.serve calls).serve later).Rests .failed) := by
  have htame : (m.serve calls).Tame := serve_tame (create_tame hcreate hadditional) hcalls
  refine ⟨⟨htame.error_iff, fun again moment h => h.isOpen htame⟩, ?_, ?_⟩
  · intro next
    have hraises := (stepWith_tame (stepAt (nestingLimit - 1)) htame).2
    rw [← step_eq_stepWith] at hraises
    refine ⟨fun fault hfault => ?_, fun failure hfailure => ?_⟩
    · cases hraises _ _ hfault
    · cases hraises _ _ hfailure
  · intro later hlater
    have hrests : (m.serve calls).phase.isFinal = true → ((m.serve calls).serve later).Rests
        (if (m.serve calls).phase = .completed then .finished else .failed) := by
      intro hfinal
      have hstays := serve_final hfinal hlater
      rw [← hstays]
      exact rests_of_final (by rw [hstays]; exact hfinal)
    refine ⟨fun hphase => ?_, fun hphase => ?_⟩
    · rw [hphase] at hrests
      exact hrests rfl
    · rw [hphase] at hrests
      exact hrests rfl

/-- An action of the host loads the machine anew and then raises an error: the new run fails, and
stays so while the host defines, inserts and steps. -/
theorem serve_lifecycle_reload :
    ∃ m : Machine Recorder,
      create ({} : Recorder)
        { additional :=
            [{ name := "AGAIN", category := .action, minDepth := 0
               effect := .hosted (.load ["UP"] [7] (.raise (.failure (.host "KeyError" "k")))) }]
          maxSteps := some 5
          debug := some false } = .ok m ∧
      ((m.serve [.load ["AGAIN", "POP"] [], .step 0]).phase = .failed ∧
        (m.serve [.load ["AGAIN", "POP"] [], .step 0]).memory.stack = [7] ∧
        (m.serve [.load ["AGAIN", "POP"] [], .step 0]).error ≠ none) ∧
      ((m.serve [.load ["AGAIN", "POP"] [], .step 0]).serve
        [.define "P" ["UP"], .splice ["P"], .advance]).Rests .failed := by
  let again : Operation :=
    { name := "AGAIN", category := .action, minDepth := 0
      effect := .hosted (.load ["UP"] [7] (.raise (.failure (.host "KeyError" "k")))) }
  let m : Machine Recorder :=
    { memory := { dice := .cycling #[], world := {} }
      operations := Builtin.catalogue.insert again
      maxSteps := 5
      debug := false }
  have hcreate : create ({} : Recorder)
      { additional := [again], maxSteps := some 5, debug := some false } = .ok m := rfl
  have hadditional : ∀ operation ∈ [again], operation.effect.StepFree := by
    intro operation hmem
    cases List.mem_singleton.mp hmem
    trivial
  have hcalls : ∀ call ∈ [HostCall.load ["AGAIN", "POP"] [], .step 0], call.StepFree := by
    simp [HostCall.StepFree]
  have hphase : (m.serve [.load ["AGAIN", "POP"] [], .step 0]).phase = .failed := by decide +kernel
  obtain ⟨⟨herror, -⟩, -, hrests⟩ := serve_lifecycle hcreate hadditional hcalls
  refine ⟨m, hcreate, ⟨hphase, by decide +kernel, herror.mpr hphase⟩, ?_⟩
  exact (hrests [.define "P" ["UP"], .splice ["P"], .advance] (by simp [HostCall.loads])).2 hphase

end Machine

end StackRover
