import StackRover.Proofs.Courses
import StackRover.Proofs.Traces

/-!
# Runs under two limits

The limit of steps decides nothing but when to stop. A run that does not fail for its limit is the
same under every greater one, down to the last request to the world. A run that does fail for it has
by then executed one term more than the limit allows for, and notified the world of it: it stops
where the run under the greater limit comes by, with the same stack, pending terms, definitions,
dice and world.

* `step_withLimit`: one step under two limits.
* `Course.withLimit`: all steps of a run.
* `run_withLimit`: the limit is transparent.
-/

namespace StackRover.Machine

variable {σ : Type}

/-- So many terms are executed from the one machine to the other, and the effect of each succeeds.
-/
inductive Executes [World σ] : Nat → Machine σ → Machine σ → Prop
  | refl (m : Machine σ) : Executes 0 m m
  | cons {n : Nat} {m last : Machine σ} {name : String} {rest : List String} {category : Category}
      {memory : Memory σ} (hlive : m.phase.isFinal = false)
      (hpending : m.memory.pending = name :: rest)
      (heffect : m.effectOf name rest = .ok category memory)
      (hrest : Executes n (stateOf (step m)) last) : Executes (n + 1) m last

/-- The two machines are at the same point of a program, whatever has become of the run. -/
structure Agrees (m m' : Machine σ) : Prop where
  stack : m'.memory.stack = m.memory.stack
  pending : m'.memory.pending = m.memory.pending
  definitions : m'.memory.definitions = m.memory.definitions
  dice : m'.memory.dice = m.memory.dice
  world : m'.memory.world = m.memory.world
  shown : m'.memory.shown = m.memory.shown
  steps : m'.steps = m.steps

/-- The step of the machine executes the first term beyond its limit. Under the other limit the same
term leaves a machine at the same point, and the run goes on if the limit allows for it. -/
structure Overruns [World σ] (limit : Int) (m last : Machine σ) : Prop where
  step : Machine.step m = .ok .failed last
  error : last.error = limitFault m.maxSteps
  steps : last.steps = m.steps + 1
  beyond : m.maxSteps < last.steps
  executes : Executes 1 (m.withLimit limit) (stateOf (Machine.step (m.withLimit limit)))
  agrees : Agrees last (stateOf (Machine.step (m.withLimit limit)))
  live : (last.steps : Int) ≤ limit →
    (stateOf (Machine.step (m.withLimit limit))).phase.isFinal = false

variable {m : Machine σ} {limit : Int}

/-! ## One step -/

theorem settle_withLimit (limit : Int) (raised : Raised) (m : Machine σ) :
    settle raised (m.withLimit limit) = mapState (withLimit limit) (settle raised m) := by
  unfold settle
  cases raised.ending? <;> rfl

theorem settle_agrees (raised : Raised) (m : Machine σ) : Agrees (stateOf (settle raised m)) m := by
  unfold settle
  cases raised.ending? with
  | none => exact ⟨rfl, rfl, rfl, rfl, rfl, rfl, rfl⟩
  | some fault => exact ⟨rfl, rfl, rfl, rfl, rfl, by simp [Memory.shown, Event.isOwnLog], rfl⟩

theorem Agrees.symm {a b : Machine σ} (h : Agrees a b) : Agrees b a :=
  ⟨h.stack.symm, h.pending.symm, h.definitions.symm, h.dice.symm, h.world.symm, h.shown.symm,
    h.steps.symm⟩

theorem Agrees.trans {a b c : Machine σ} (h : Agrees a b) (h' : Agrees b c) : Agrees a c :=
  ⟨h'.stack.trans h.stack, h'.pending.trans h.pending, h'.definitions.trans h.definitions,
    h'.dice.trans h.dice, h'.world.trans h.world, h'.shown.trans h.shown, h'.steps.trans h.steps⟩

/-- What is ordinary is not the fault of the limit. -/
theorem settle_ordinary {raised : Raised} (h : raised.IsOrdinary) (m : Machine σ) (other : Int) :
    (stateOf (settle raised m)).error ≠ some (.programTooLong other) := by
  obtain ⟨fault, hending, hfault⟩ := h.ending
  obtain ⟨last, hsettle, -, herror, -⟩ := settle_eq hending m
  rw [hsettle, stateOf_ok, herror]
  intro hsome
  exact hfault other (Option.some.inj hsome)

/-- A step ends in the same way under a greater limit, unless its term is the first beyond the
smaller. -/
theorem wrapUp_withLimit [World σ] (hworld : RaisesOnly σ Raised.IsOrdinary)
    (hlimit : m.maxSteps ≤ limit) (herror : m.error = none)
    {effect : EStateM.Result Raised (Memory σ) Category}
    (heffect : ∀ raised memory, effect = .error raised memory → raised.IsOrdinary) :
    ((m.withLimit limit).wrapUp effect = mapState (withLimit limit) (m.wrapUp effect) ∧
      ∀ other, (stateOf (m.wrapUp effect)).error ≠ some (.programTooLong other)) ∨
    ∃ category memory counted, effect = .ok category memory ∧
      m.maxSteps < ((m.steps + 1 : Nat) : Int) ∧
      m.wrapUp effect = settle (Raised.ofFault (.programTooLong m.maxSteps))
        { m with memory := counted, steps := m.steps + 1, phase := .running } ∧
      (m.withLimit limit).wrapUp effect =
        if limit < ((m.steps + 1 : Nat) : Int) then
          settle (Raised.ofFault (.programTooLong limit))
            { m.withLimit limit with memory := counted, steps := m.steps + 1, phase := .running }
        else
          .ok category.progress
            { m.withLimit limit with
              memory := counted, steps := m.steps + 1, phase := category.phase } := by
  unfold wrapUp
  cases effect with
  | error raised memory =>
    exact Or.inl ⟨settle_withLimit limit raised { m with memory := memory, phase := .running },
      settle_ordinary (heffect raised memory rfl) _⟩
  | ok category memory =>
    simp only
    cases htold : Task.ask (World.stackChanged memory.stack) memory with
    | error raised told =>
      have hordinary := hworld.stackChanged _ _ _ (Task.result_of_ask htold)
      exact Or.inl ⟨settle_withLimit limit raised { m with memory := told, phase := .running },
        settle_ordinary hordinary _⟩
    | ok _ told =>
      simp only
      have hsteps : (m.withLimit limit).steps = m.steps := rfl
      rw [hsteps]
      cases hcounted : Task.ask (World.stepped (m.steps + 1)) told with
      | error raised counted =>
        have hordinary := hworld.stepped _ _ _ (Task.result_of_ask hcounted)
        exact Or.inl ⟨settle_withLimit limit raised
          { m with memory := counted, steps := m.steps + 1, phase := .running },
          settle_ordinary hordinary _⟩
      | ok _ counted =>
        by_cases hover : m.maxSteps < ((m.steps + 1 : Nat) : Int)
        · refine Or.inr ⟨category, memory, counted, rfl, hover, ?_, rfl⟩
          simp only [if_pos hover]
        · have hover' : ¬ limit < ((m.steps + 1 : Nat) : Int) := by omega
          refine Or.inl ⟨?_, ?_⟩
          · simp only [if_neg hover]
            exact if_neg hover'
          · simp only [if_neg hover, stateOf_ok, herror]
            simp

/-- The first term beyond the limit, under both limits. -/
theorem overruns_of_effect [World σ] (hm : m.Unhosted) (hlive : m.phase.isFinal = false)
    {name : String} {rest : List String} (hpending : m.memory.pending = name :: rest)
    {category : Category}
    {memory counted : Memory σ} (heffect : m.effectOf name rest = .ok category memory)
    (hover : m.maxSteps < ((m.steps + 1 : Nat) : Int))
    (hends : m.wrapUp (m.effectOf name rest) = settle (Raised.ofFault (.programTooLong m.maxSteps))
      { m with memory := counted, steps := m.steps + 1, phase := .running })
    (hends' : (m.withLimit limit).wrapUp (m.effectOf name rest) =
      if limit < ((m.steps + 1 : Nat) : Int) then
        settle (Raised.ofFault (.programTooLong limit))
          { m.withLimit limit with memory := counted, steps := m.steps + 1, phase := .running }
      else
        .ok category.progress
          { m.withLimit limit with
            memory := counted, steps := m.steps + 1, phase := category.phase }) :
    ∃ last, Overruns limit m last := by
  obtain ⟨last, hsettle, -, hfault, hsteps⟩ := settle_limit m.maxSteps
    { m with memory := counted, steps := m.steps + 1, phase := .running }
  have hlast := settle_agrees (Raised.ofFault (.programTooLong m.maxSteps))
    { m with memory := counted, steps := m.steps + 1, phase := .running }
  rw [hsettle, stateOf_ok] at hlast
  have hstep : step m = .ok .failed last := by
    rw [step_wrapUp hm hlive hpending, hends, hsettle]
  have hstep' := (step_wrapUp (m := m.withLimit limit) hm hlive hpending).trans hends'
  have hsteps' : last.steps = m.steps + 1 := hsteps
  refine ⟨last, hstep, hfault, hsteps', by rw [hsteps']; exact hover,
    .cons hlive hpending heffect (.refl _), hlast.trans ?_, fun hroom => ?_⟩
  · rw [hstep']
    split
    · have hsame : Agrees { m with memory := counted, steps := m.steps + 1, phase := .running }
          { m.withLimit limit with memory := counted, steps := m.steps + 1, phase := .running } :=
        ⟨rfl, rfl, rfl, rfl, rfl, rfl, rfl⟩
      exact hsame.trans (settle_agrees _ _).symm
    · exact ⟨rfl, rfl, rfl, rfl, rfl, rfl, rfl⟩
  · rw [hsteps'] at hroom
    have hnot : ¬ limit < ((m.steps + 1 : Nat) : Int) := by omega
    rw [hstep', if_neg hnot]
    exact Category.isFinal_phase category

/-- A step is the same under a greater limit, unless it executes the first term beyond the smaller
one. -/
theorem step_withLimit [World σ] (hworld : RaisesOnly σ Raised.IsOrdinary) (hm : m.Unhosted)
    (hlimit : m.maxSteps ≤ limit) (herror : m.error = none) :
    (step (m.withLimit limit) = mapState (withLimit limit) (step m) ∧
      ∀ other, (stateOf (step m)).error ≠ some (.programTooLong other)) ∨
    ∃ last, Overruns limit m last := by
  cases hfinal : m.phase.isFinal with
  | true =>
    have hfinal' : (m.withLimit limit).phase.isFinal = true := hfinal
    rw [step_final hfinal, step_final hfinal']
    refine Or.inl ⟨rfl, fun other hother => ?_⟩
    rw [stateOf_ok, herror] at hother
    cases hother
  | false =>
    have hlive : (m.withLimit limit).phase.isFinal = false := hfinal
    cases hpending : m.memory.pending with
    | nil =>
      have hpending' : (m.withLimit limit).memory.pending = [] := hpending
      rw [step_end hfinal hpending, step_end hlive hpending']
      refine Or.inl ⟨rfl, fun other hother => ?_⟩
      rw [stateOf_ok, herror] at hother
      cases hother
    | cons name rest =>
      have hpending' : (m.withLimit limit).memory.pending = name :: rest := hpending
      have hunhosted : (m.withLimit limit).Unhosted := hm
      have hstep := step_wrapUp hm hfinal hpending
      have hstep' := step_wrapUp hunhosted hlive hpending'
      have hsame : (m.withLimit limit).effectOf name rest = m.effectOf name rest := rfl
      rw [hsame] at hstep'
      rw [hstep, hstep']
      rcases wrapUp_withLimit hworld hlimit herror
          (fun raised memory => effectOf_ordinary hworld) with
        heq | ⟨category, memory, counted, heffect, hover, hends, hends'⟩
      · exact Or.inl heq
      · exact Or.inr (overruns_of_effect hm hfinal hpending heffect hover hends hends')

/-! ## All steps of a run -/

/-- A step that goes on has executed a term. -/
theorem executes_of_goesOn [World σ] (hm : m.Unhosted) {progress : Progress} {next : Machine σ}
    (hstep : step m = .ok progress next) (hgoes : progress.goesOn = true) :
    ∃ name rest category memory, m.phase.isFinal = false ∧ m.memory.pending = name :: rest ∧
      m.effectOf name rest = .ok category memory ∧ next.error = m.error ∧
      next.steps = m.steps + 1 := by
  rcases idle_or_term m with hidle | ⟨name, rest, hlive, hpending⟩
  · obtain ⟨other, last, hother, hstops, -⟩ := step_idle hidle
    rw [hother] at hstep
    cases hstep
    rw [hstops] at hgoes
    cases hgoes
  · rw [step_wrapUp hm hlive hpending] at hstep
    obtain ⟨category, memory, told, counted, heffect, -, -, -, -, rfl⟩ := wrapUp_goesOn hstep hgoes
    exact ⟨name, rest, category, memory, hlive, hpending, heffect, rfl, rfl⟩

theorem Course.length_pos [World σ] {goes : Progress → Bool} {machines : List (Machine σ)}
    {result : EStateM.Result Raised (Machine σ) Progress} (h : Course goes machines m result) :
    0 < machines.length := by
  cases h with
  | stop | cons => exact Nat.zero_lt_succ _

/-- The steps of a run are the same under a greater limit, unless the last of them executes the
first term beyond the smaller one. -/
theorem Course.withLimit [World σ] (hworld : RaisesOnly σ Raised.IsOrdinary) (hm : m.Unhosted)
    (hlimit : m.maxSteps ≤ limit) (herror : m.error = none) {machines : List (Machine σ)}
    {result : EStateM.Result Raised (Machine σ) Progress}
    (h : Course Progress.goesOn machines m result) :
    (Course Progress.goesOn (machines.map (Machine.withLimit limit)) (m.withLimit limit)
        (mapState (Machine.withLimit limit) result) ∧
      ∀ other, (stateOf result).error ≠ some (.programTooLong other)) ∨
    ∃ last after, result = .ok .failed last ∧ last.error = limitFault m.maxSteps ∧
      m.maxSteps < last.steps ∧ last.steps = m.steps + machines.length ∧
      Executes machines.length (m.withLimit limit) after ∧ Agrees last after ∧
      ((last.steps : Int) ≤ limit → after.phase.isFinal = false) := by
  induction h with
  | @stop m hstop =>
    rcases step_withLimit hworld hm hlimit herror with ⟨hstep, hfault⟩ | ⟨last, hover⟩
    · refine Or.inl ⟨?_, hfault⟩
      rw [← hstep]
      refine .stop fun progress next hnext => ?_
      rw [hstep] at hnext
      cases hfirst : step m with
      | error raised last =>
        rw [hfirst] at hnext
        cases hnext
      | ok progress' last =>
        rw [hfirst] at hnext
        cases hnext
        exact hstop _ _ hfirst
    · exact Or.inr ⟨last, _, hover.step, hover.error, hover.beyond, hover.steps, hover.executes,
        hover.agrees, hover.live⟩
  | @cons m next machines progress result hstep hgoes _ ih =>
    obtain ⟨name, rest, category, memory, hlive, hpending, heffect, herror', hsteps⟩ :=
      executes_of_goesOn hm hstep hgoes
    have hsame := SameSetup.of_step hm hstep
    -- A step that goes on has not passed the smaller limit, so the greater one makes no difference.
    have hstep' : step (m.withLimit limit) = .ok progress (next.withLimit limit) := by
      rcases step_withLimit hworld hm hlimit herror with ⟨heq, -⟩ | ⟨last, hover⟩
      · rw [heq, hstep]
        rfl
      · rw [hover.step] at hstep
        cases hstep
        cases hgoes
    rcases ih (hsame.unhosted hm) (by rw [hsame.maxSteps]; exact hlimit) (herror'.trans herror) with
      ⟨hcourse, hfault⟩ | ⟨last, after, hresult, hends, hbeyond, hcount, hexecutes, hagrees, hroom⟩
    · exact Or.inl ⟨.cons hstep' hgoes hcourse, hfault⟩
    · rw [hsame.maxSteps] at hends hbeyond
      refine Or.inr ⟨last, after, hresult, hends, hbeyond, ?_, ?_, hagrees, hroom⟩
      · rw [hcount, hsteps, List.length_cons]
        omega
      · have hfirst : Executes (machines.length + 1) (m.withLimit limit) after := by
          refine .cons hlive hpending heffect ?_
          rw [hstep', stateOf_ok]
          exact hexecutes
        exact hfirst

/-! ## Transparency -/

theorem outcomeOf_withLimit (limit : Int) (result : EStateM.Result Raised (Machine σ) Progress) :
    outcomeOf (mapState (withLimit limit) result) =
      mapState (withLimit limit) (outcomeOf result) := by
  cases result with
  | error raised last => rfl
  | ok progress last =>
    show outcome (last.withLimit limit) = mapState (withLimit limit) (outcome last)
    unfold outcome
    rw [bind_apply_ok (get_apply last), bind_apply_ok (get_apply (last.withLimit limit))]
    have herror : (last.withLimit limit).error = last.error := rfl
    simp only [herror]
    cases last.error <;> rfl

/-- **The limit of steps is transparent.** In a world that raises neither interrupts nor the fault
of the limit, a run that ends otherwise than for its limit is the same under every greater limit: it
gives or raises the same and leaves the same machine, with the same stack, pending terms,
definitions, dice, world, journal, count, phase and error. If the limit can be written, then to end
for it is to fail with its fault; whether or not it can, a run has not ended for its limit if its
error is another one or if its count is within the limit. A run that ends for its limit has counted
one term more than the limit; it agrees in all of this, but for what follows from its end, with the
run under the greater limit after as many terms whose effects succeeded. The world is any one, so
also one that is `Traced`: the requests are the same as well. -/
theorem run_withLimit [World σ] (hworld : RaisesOnly σ Raised.IsOrdinary) (hm : m.Unhosted)
    (hlimit : m.maxSteps ≤ limit) (terms : List String) (stack : List Int) :
    (Text.isWritable m.maxSteps = true →
      (stateOf (run (m.load terms stack))).error ≠ some (.programTooLong m.maxSteps) →
      run ((m.withLimit limit).load terms stack) =
        mapState (withLimit limit) (run (m.load terms stack))) ∧
    ((stateOf (run (m.load terms stack))).error ≠ limitFault m.maxSteps ∨
        (stateOf (run (m.load terms stack))).steps ≤ m.maxSteps.toNat →
      run ((m.withLimit limit).load terms stack) =
        mapState (withLimit limit) (run (m.load terms stack))) ∧
    ((stateOf (run (m.load terms stack))).error = some (.programTooLong m.maxSteps) →
      (stateOf (run (m.load terms stack))).steps = m.maxSteps.toNat + 1 ∧
      ∃ after, Executes (m.maxSteps.toNat + 1) ((m.withLimit limit).load terms stack) after ∧
        Agrees (stateOf (run (m.load terms stack))) after ∧
        ((m.maxSteps.toNat : Int) < limit → after.phase.isFinal = false)) := by
  have hunhosted : (m.load terms stack).Unhosted := (load_sameSetup m terms stack).unhosted hm
  have hsteady : (m.load terms stack).Steady Raised.IsOrdinary :=
    hunhosted.steady hworld fun _ h => h
  obtain ⟨machines, result, hcourse⟩ : ∃ machines result,
      Course Progress.goesOn machines (m.load terms stack) result :=
    exists_course (fun _ hgoes => hgoes) hsteady
  have hlength := hcourse.length_le (fun _ hgoes => hgoes) hsteady
  have hpos := hcourse.length_pos
  rw [hcourse.run_eq hsteady, stateOf_outcomeOf]
  have hlimit' : (m.load terms stack).maxSteps ≤ limit := hlimit
  rcases hcourse.withLimit hworld hunhosted hlimit' rfl with
    ⟨hsame, hfault⟩ | ⟨last, after, rfl, hends, hbeyond, hcount, hexecutes, hagrees, hroom⟩
  · have hsteady' : ((m.load terms stack).withLimit limit).Steady Raised.IsOrdinary :=
      Unhosted.steady hunhosted hworld fun _ h => h
    have hequal := (hsame.run_eq hsteady').trans (outcomeOf_withLimit limit result)
    exact ⟨fun _ _ => hequal, fun _ => hequal, fun hover => absurd hover (hfault _)⟩
  · have hcount' : last.steps = machines.length := hcount.trans (Nat.zero_add _)
    have hsteps : (m.load terms stack).steps = 0 := rfl
    have hmax : (m.load terms stack).maxSteps = m.maxSteps := rfl
    rw [hmax] at hlength hbeyond
    have hexact : machines.length = m.maxSteps.toNat + 1 := by omega
    rw [hexact] at hcount' hexecutes
    refine ⟨fun hwritable hother => ?_, fun hother => ?_, fun _ => ?_⟩
    · rw [hmax, limitFault_of_isWritable hwritable] at hends
      exact absurd hends hother
    · rcases hother with hother | hwithin
      · exact absurd hends hother
      · rw [stateOf_ok] at hwithin
        omega
    · refine ⟨hcount', after, hexecutes, hagrees, fun hless => ?_⟩
      apply hroom
      omega

/-- Under the limit of two, a program of three terms is stopped after its third: it has moved, and
the world was told of all three terms, as in the run under the limit of three. That one completes,
and so it is the same under the limit of nine. -/
theorem run_withLimit_three :
    (stateOf (run ((plain (⟨{}, []⟩ : Traced Void) 2).load
        ["PUSH", "1", "DUP", "MOVE"] []))).error =
      some (.programTooLong 2) ∧
    (∃ after,
      Executes 3 ((plain (⟨{}, []⟩ : Traced Void) 3).load ["PUSH", "1", "DUP", "MOVE"] []) after ∧
      Agrees
        (stateOf (run ((plain (⟨{}, []⟩ : Traced Void) 2).load ["PUSH", "1", "DUP", "MOVE"] [])))
        after ∧
      after.phase.isFinal = false ∧
      after.memory.world.exchanges.map Exchange.call =
        [.stepped 3, .stackChanged [1], .move .up, .stepped 2, .stackChanged [1, 1], .stepped 1,
          .stackChanged [1]]) ∧
    run ((plain (⟨{}, []⟩ : Traced Void) 9).load ["PUSH", "1", "DUP", "MOVE"] []) =
      mapState (withLimit 9)
        (run ((plain (⟨{}, []⟩ : Traced Void) 3).load ["PUSH", "1", "DUP", "MOVE"] [])) := by
  have hworld : RaisesOnly (Traced Void) Raised.IsOrdinary := raisesOnly_traced (raisesOnly_void _)
  have hunhosted : ∀ limit, (plain (⟨{}, []⟩ : Traced Void) limit).Unhosted :=
    fun limit => catalogue_unhosted rfl
  have hover : (stateOf (run ((plain (⟨{}, []⟩ : Traced Void) 2).load
      ["PUSH", "1", "DUP", "MOVE"] []))).error = some (.programTooLong 2) := by
    decide +kernel
  have hcalls : (stateOf (run ((plain (⟨{}, []⟩ : Traced Void) 2).load
      ["PUSH", "1", "DUP", "MOVE"] []))).memory.world.exchanges.map Exchange.call =
        [.stepped 3, .stackChanged [1], .move .up, .stepped 2, .stackChanged [1, 1], .stepped 1,
          .stackChanged [1]] := by
    decide +kernel
  have hdone : (stateOf (run ((plain (⟨{}, []⟩ : Traced Void) 3).load
      ["PUSH", "1", "DUP", "MOVE"] []))).error = none := by
    decide +kernel
  have hthree : (plain (⟨{}, []⟩ : Traced Void) 2).maxSteps ≤ 3 := by decide
  have hnine : (plain (⟨{}, []⟩ : Traced Void) 3).maxSteps ≤ 9 := by decide
  obtain ⟨-, -, hstopped⟩ :=
    run_withLimit hworld (hunhosted 2) hthree ["PUSH", "1", "DUP", "MOVE"] []
  obtain ⟨hsame, -⟩ := run_withLimit hworld (hunhosted 3) hnine ["PUSH", "1", "DUP", "MOVE"] []
  obtain ⟨-, after, hexecutes, hagrees, hlive⟩ := hstopped hover
  refine ⟨hover, ⟨after, hexecutes, hagrees, hlive (by decide), ?_⟩, hsame (by decide +kernel) ?_⟩
  · rw [hagrees.world]
    exact hcalls
  · rw [hdone]
    exact (Option.some_ne_none _).symm

end StackRover.Machine
