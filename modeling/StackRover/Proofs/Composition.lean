import StackRover.Proofs.Lockstep
import StackRover.World.Plane

/-!
# Programs one after the other

A program followed by another one runs as the first and then the second on the stack that the first
has left, as long as the two together stay within the limit of steps. The first program is a walk to
a machine without pending terms; with more terms behind its own the same walk ends before them.

* `run_sequence`: running two programs in one run or in two.
-/

namespace StackRover.Machine

variable {σ : Type}

/-- A run that completes from a fresh load: the walk that it takes, as many steps as it counts, and
what completion adds. -/
theorem walk_of_run_ok [World σ] (hq : QuietHooks σ) {m done : Machine σ} (hm : m.Unhosted)
    {terms : List String} {stack stack' : List Int}
    (hrun : run (m.load terms stack) = .ok stack' done) :
    ∃ stop, Walk done.steps (m.load terms stack) stop ∧ stop.memory.pending = [] ∧
      stop.memory.stack = stack' ∧ stop.error = none ∧ stop.steps = done.steps ∧
      done.memory.definitions = stop.memory.definitions ∧ done.memory.dice = stop.memory.dice ∧
      done.memory.world = stop.memory.world ∧ done.memory.shown = stop.memory.shown ∧
      SameSetup stop done := by
  have hload : (m.load terms stack).Unhosted := (load_sameSetup m terms stack).unhosted hm
  rw [run_eq] at hrun
  cases hfinish : finishWithin 0 (m.load terms stack).allowance (m.load terms stack) with
  | error raised last =>
    rw [hfinish] at hrun
    cases hrun
  | ok _ last =>
    rw [hfinish] at hrun
    cases herror : last.error with
    | some fault =>
      simp only [herror] at hrun
      cases hrun
    | none =>
      simp only [herror, EStateM.Result.ok.injEq] at hrun
      obtain ⟨hstack, hlast⟩ := hrun
      subst hlast
      obtain ⟨n, stop, hwalk, hlive, hpending, hstep⟩ :=
        exists_walk_of_completes hq hload rfl hfinish herror
      rw [step_end hlive hpending] at hstep
      cases hstep
      have hsteps := Walk.steps_eq hq hload hwalk
      have hn : n = stop.steps := by
        rw [hsteps]
        exact (Nat.zero_add n).symm
      rw [hn] at hwalk
      exact ⟨stop, hwalk, hpending, hstack, herror, rfl, rfl, rfl, rfl, rfl, rfl, rfl, rfl⟩

/-- A run that starts with a walk ends like a fresh run that stands in step with the machine at the
end of the walk. What the walk has used up of the allowance is not missed. -/
theorem run_after_walk [World σ] (hq : QuietHooks σ) {start between fresh : Machine σ} {n : Nat}
    (hwalk : Walk n start between) (hstart : start.maxSteps = fresh.maxSteps)
    (hlive : between.phase.isFinal = false) (hm : fresh.Unhosted)
    (hrunning : fresh.phase.isFinal = false) (hsteps : fresh.steps = 0)
    (h : Extends [] [] n fresh between)
    (hroom : ((n + (stateOf (run fresh)).steps : Nat) : Int) ≤ fresh.maxSteps) :
    EndsAlike [] n (run fresh) (run start) := by
  have hallowance := allowance_congr hstart
  have hlast := lt_allowance fresh
  rw [stateOf_run] at hroom
  have hfuel : finishWithin 0 (fresh.allowance - n) fresh =
      finishWithin 0 fresh.allowance fresh := by
    apply finishWithin_eq_of_steps_lt hq hm
    · omega
    · omega
  have hjoin : finishWithin 0 start.allowance start =
      finishWithin 0 (fresh.allowance - n) between := by
    rw [← hwalk.finishWithin_eq]
    congr 1
    omega
  refine run_endsAlike hjoin ?_
  rw [← hfuel]
  apply finishWithin_extends hq hm h
  · exact Or.inr ⟨hrunning, hlive, by omega⟩
  · exact Or.inl rfl
  · rw [hfuel]
    exact Or.inr hroom

/-- **Sequential composition.** If the first program completes, then so many steps of the joint
program lead to the second one, with the stack, the definitions, the world, the dice and the count
that the first has left; and the joint program ends like the second one run on that stack, unless
the two together pass the limit. -/
theorem run_sequence [World σ] (hq : QuietHooks σ) {m done : Machine σ} (hm : m.Unhosted)
    {first : List String} {stack stack' : List Int}
    (hfirst : run (m.load first stack) = .ok stack' done) (second : List String) :
    (∃ between, stepTimes done.steps (m.load (first ++ second) stack) = .ok () between ∧
      between.memory.pending = second ∧ between.memory.stack = stack' ∧
      between.memory.definitions = done.memory.definitions ∧
      between.memory.world = done.memory.world ∧ between.memory.dice = done.memory.dice ∧
      between.memory.shown = done.memory.shown ∧ between.steps = done.steps ∧
      between.error = none ∧ between.phase.isFinal = false) ∧
    (((done.steps + (stateOf (run (done.load second stack'))).steps : Nat) : Int) ≤ m.maxSteps →
      EndsAlike [] done.steps (run (done.load second stack'))
        (run (m.load (first ++ second) stack))) := by
  obtain ⟨stop, hwalk, hpending, hstack, herror, hsteps, hdefinitions, hdice, hworld, hshown,
    hsetup⟩ := walk_of_run_ok hq hm hfirst
  have hunhosted : (m.load first stack).Unhosted := (load_sameSetup m first stack).unhosted hm
  have hjoint : Extends [] second 0 (m.load first stack) (m.load (first ++ second) stack) := by
    have hload := load_extends m first second stack []
    rwa [List.append_nil] at hload
  obtain ⟨between, hwalk', hbetween, hlive⟩ :=
    walk_extends hq hunhosted hjoint rfl hwalk (Or.inl rfl)
  have hbpending : between.memory.pending = second := by
    rw [hbetween.memory.pending, hpending]
    rfl
  have hbstack : between.memory.stack = stack' := by
    rw [hbetween.memory.stack, List.append_nil, hstack]
  have hbsteps : between.steps = done.steps := by
    rw [hbetween.steps, Nat.zero_add, hsteps]
  have hbdefinitions := hbetween.memory.definitions.trans hdefinitions.symm
  have hbworld := hbetween.memory.world.trans hworld.symm
  have hbdice := hbetween.memory.dice.trans hdice.symm
  have hbshown := hbetween.memory.shown.trans hshown.symm
  have hberror := hbetween.error.trans herror
  refine ⟨⟨between, hwalk'.stepTimes_eq, hbpending, hbstack, hbdefinitions, hbworld, hbdice,
    hbshown, hbsteps, hberror, hlive⟩, fun hroom => ?_⟩
  have hdone : SameSetup m done :=
    ((load_sameSetup m first stack).trans (hwalk.sameSetup hunhosted)).trans hsetup
  have hreached : SameSetup m between :=
    (load_sameSetup m (first ++ second) stack).trans (hwalk'.sameSetup hunhosted)
  have hfresh : SameSetup m (done.load second stack') :=
    hdone.trans (load_sameSetup done second stack')
  -- The second program starts from a machine that stands in step with the one reached.
  have hsecond : Extends [] [] done.steps (done.load second stack') between := by
    refine ⟨⟨?_, ?_, hbdefinitions, hbdice, hbworld, ?_⟩, ?_, ?_, hbsteps, hberror⟩
    · rw [hbstack]
      exact (List.append_nil _).symm
    · rw [hbpending]
      exact (List.append_nil _).symm
    · rw [load_shown]
      exact hbshown
    · exact hreached.operations.trans hfresh.operations.symm
    · exact hreached.maxSteps.trans hfresh.maxSteps.symm
  rw [← hfresh.maxSteps] at hroom
  exact run_after_walk hq hwalk' hfresh.maxSteps.symm hlive (hfresh.unhosted hm) rfl rfl hsecond
    hroom

/-- A definition made by the first program is used by the second, and the limit is just enough. -/
theorem run_sequence_definition :
    ∃ done,
      run ((plain ({} : Plane) 9).load
          ["PUSH", "2", "DEF", "TWICE", "DUP", "ADD", "END", "UP"] [7]) =
        .ok [2, 7] done ∧
      done.steps + (stateOf (run (done.load ["TWICE", "TWICE"] [2, 7]))).steps = 9 ∧
      EndsAlike [] done.steps (run (done.load ["TWICE", "TWICE"] [2, 7]))
        (run ((plain ({} : Plane) 9).load
          (["PUSH", "2", "DEF", "TWICE", "DUP", "ADD", "END", "UP"] ++ ["TWICE", "TWICE"])
          [7])) := by
  have hunhosted : (plain ({} : Plane) 9).Unhosted := catalogue_unhosted rfl
  have hvalue : valueOf (run ((plain ({} : Plane) 9).load
      ["PUSH", "2", "DEF", "TWICE", "DUP", "ADD", "END", "UP"] [7])) = some [2, 7] := by
    decide +kernel
  have hsteps : (stateOf (run ((plain ({} : Plane) 9).load
        ["PUSH", "2", "DEF", "TWICE", "DUP", "ADD", "END", "UP"] [7]))).steps +
      (stateOf (run ((stateOf (run ((plain ({} : Plane) 9).load
        ["PUSH", "2", "DEF", "TWICE", "DUP", "ADD", "END", "UP"] [7]))).load
          ["TWICE", "TWICE"] [2, 7]))).steps = 9 := by
    decide +kernel
  -- The machine that the first run leaves is kept folded from here on.
  generalize hrun : run ((plain ({} : Plane) 9).load
    ["PUSH", "2", "DEF", "TWICE", "DUP", "ADD", "END", "UP"] [7]) = first at hvalue hsteps
  have hfirst := eq_ok_of_valueOf hvalue
  generalize stateOf first = done at hsteps hfirst
  have hroom : ((done.steps + (stateOf (run (done.load ["TWICE", "TWICE"] [2, 7]))).steps : Nat)
      : Int) ≤ 9 := by
    rw [hsteps]
    decide
  exact ⟨done, hfirst, hsteps,
    (run_sequence quietHooks_plane hunhosted (hrun.trans hfirst) ["TWICE", "TWICE"]).2 hroom⟩

end StackRover.Machine
