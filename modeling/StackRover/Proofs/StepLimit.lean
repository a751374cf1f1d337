import StackRover.Proofs.Composition
import StackRover.Proofs.Invariants
import StackRover.World.Void

/-!
# The limit of steps

Definitions can call themselves and the pending terms can grow with every step, so nothing but the
count bounds a run. The count is checked after each term: a walk never passes the limit, and the
first term beyond it is executed and then ends the run. So a run takes at most one term more than
its limit, and a program that needs as many steps as the limit allows still completes. The fault of
a run beyond its limit tells the limit, so a limit with too many digits makes it the failure to
write it (`run_unwritable_limit`).

* `Stops`: how the last step of a run leaves it.
* `exists_endsAfter`: every run comes to a last step.
* `steps_le_of_reaches`: the count throughout the run.
* `Walk.withLimit`, `overruns_of_walk`: a program that is run with another limit.
* `run_bounded`: the limit of steps bounds every run, and exactly.
-/

namespace StackRover

variable {σ : Type}

/-- What is ordinary ends a run, and not for its limit. -/
theorem Raised.IsOrdinary.ending {raised : Raised} (h : raised.IsOrdinary) :
    ∃ fault, raised.ending? = some fault ∧ ∀ limit, fault ≠ .programTooLong limit := by
  cases raised with
  | fault fault =>
    refine ⟨fault, rfl, ?_⟩
    rintro limit rfl
    exact h
  | failure failure =>
    refine ⟨_, rfl, ?_⟩
    intro limit hfault
    cases hfault
  | interrupt | exhausted => exact absurd h id

theorem Raised.IsOrdinary.ending?_ne_none {raised : Raised} (h : raised.IsOrdinary) :
    raised.ending? ≠ none := by
  obtain ⟨fault, hending, -⟩ := h.ending
  rw [hending]
  exact Option.some_ne_none fault

namespace Machine

/-- The fault of a run beyond the limit. A limit that cannot be written makes it the failure to
write it. -/
def limitFault (limit : Int) : Option Fault := (Raised.ofFault (.programTooLong limit)).ending?

theorem limitFault_of_isWritable {limit : Int} (h : Text.isWritable limit = true) :
    limitFault limit = some (.programTooLong limit) := by
  have hwritable : (Fault.programTooLong limit).isWritable = true := by
    simp [Fault.isWritable, Fault.numbers, h]
  rw [limitFault, Raised.ofFault_of_isWritable hwritable]
  rfl

/-- How the last step of a run leaves it: without a term to execute, after a term that raised
something, or after the first term beyond the limit. -/
inductive Stops (m last : Machine σ) : Prop
  | completed (hphase : last.phase = .completed) (herror : last.error = m.error)
      (hsteps : last.steps = m.steps)
  | failed {fault : Fault} (hphase : last.phase = .failed) (herror : last.error = some fault)
      (hfault : ∀ limit, fault ≠ .programTooLong limit) (hsteps : last.steps = m.steps)
  | overran (hphase : last.phase = .failed) (herror : last.error = limitFault m.maxSteps)
      (hsteps : last.steps = m.steps + 1) (hlimit : m.maxSteps < ((m.steps + 1 : Nat) : Int))

/-- From the one machine, so many steps execute a term and go on; the next one is the last, and
leaves the other. -/
def EndsAfter [World σ] (n : Nat) (m last : Machine σ) : Prop :=
  ∃ stop progress, Walk n m stop ∧ step stop = .ok progress last ∧ progress.goesOn = false

variable {m : Machine σ}

/-! ## The last step -/

theorem effectOf_ordinary [World σ] (hworld : RaisesOnly σ Raised.IsOrdinary) {name : String}
    {rest : List String} {raised : Raised} {memory : Memory σ}
    (h : m.effectOf name rest = .error raised memory) : raised.IsOrdinary := by
  let P : Memory σ → Prop := fun _ => True
  have hP : Memory.Scenic P := fun _ _ _ => trivial
  have hactive : ∀ builtin : Builtin, m.operations.contains builtin.name = true →
      Respects P Raised.IsOrdinary (builtin.perform : Task σ Unit) := by
    intro builtin _
    refine Builtin.perform_respects hP.durable (fun _ h => h) (fun _ _ _ _ => trivial) ?_ ?_ ?_
    · exact fun _ direction => Task.ask_respects hP (fun _ _ => trivial) (hworld.move direction)
    · exact fun _ => Task.ask_respects hP (fun _ _ => trivial) hworld.position
    · exact fun _ cell => Task.ask_respects hP (fun _ _ => trivial) (hworld.lookAt cell)
  exact (effectOf_respects hP.durable (fun _ h => h) hactive name rest).2 raised memory h

theorem settle_eq {raised : Raised} {fault : Fault} (h : raised.ending? = some fault)
    (m : Machine σ) :
    ∃ last, settle raised m = .ok .failed last ∧ last.phase = .failed ∧ last.error = some fault ∧
      last.steps = m.steps := by
  unfold settle
  rw [h]
  exact ⟨_, rfl, rfl, rfl, rfl⟩

theorem settle_limit (limit : Int) (m : Machine σ) :
    ∃ last, settle (Raised.ofFault (.programTooLong limit)) m = .ok .failed last ∧
      last.phase = .failed ∧ last.error = limitFault limit ∧ last.steps = m.steps := by
  obtain ⟨fault, hending⟩ := Option.ne_none_iff_exists'.mp
    (Raised.ending?_ofFault (.programTooLong limit))
  rw [limitFault, hending]
  exact settle_eq hending m

/-- The step of a live run goes on, or it is the last one. Nothing escapes from it. -/
theorem step_ordinary [World σ] (hq : QuietHooks σ) (hworld : RaisesOnly σ Raised.IsOrdinary)
    (hm : m.Unhosted) (hlive : m.phase.isFinal = false) :
    ∃ progress next, step m = .ok progress next ∧ (progress.goesOn = false → m.Stops next) := by
  cases hpending : m.memory.pending with
  | nil =>
    rw [step_end hlive hpending]
    exact ⟨_, _, rfl, fun _ => .completed rfl rfl rfl⟩
  | cons name rest =>
    rw [step_quiet hq hm hlive hpending]
    cases heffect : m.effectOf name rest with
    | error raised memory =>
      obtain ⟨fault, hending, hfault⟩ := (effectOf_ordinary hworld heffect).ending
      obtain ⟨last, hsettle, hphase, herror, hsteps⟩ :=
        settle_eq hending { m with memory := memory, phase := .running }
      exact ⟨_, last, hsettle, fun _ => .failed hphase herror hfault hsteps⟩
    | ok category memory =>
      simp only
      split
      · rename_i hlimit
        obtain ⟨last, hsettle, hphase, herror, hsteps⟩ := settle_limit m.maxSteps
          { m with memory := memory, steps := m.steps + 1, phase := .running }
        exact ⟨_, last, hsettle, fun _ => .overran hphase herror hsteps hlimit⟩
      · refine ⟨_, _, rfl, fun hgoes => ?_⟩
        rw [Category.goesOn_progress] at hgoes
        cases hgoes

/-! ## Every run ends -/

/-- A walk stays within the limit. -/
theorem Walk.steps_le [World σ] (hq : QuietHooks σ) {m' : Machine σ} {n : Nat} (hm : m.Unhosted)
    (h : Walk n m m') : n = 0 ∨ ((m.steps + n : Nat) : Int) ≤ m.maxSteps := by
  induction h with
  | refl m => exact Or.inl rfl
  | @cons n m next last progress hstep hgoes _ ih =>
    have hsame := SameSetup.of_step hm hstep
    obtain ⟨-, name, rest, category, memory, -, -, hroom, -, hnext⟩ := step_goesOn hq hm hstep hgoes
    have hsteps : next.steps = m.steps + 1 := by rw [hnext]
    refine Or.inr ?_
    rcases ih (hsame.unhosted hm) with hzero | hle
    · subst hzero
      omega
    · rw [hsame.maxSteps, hsteps] at hle
      omega

/-- Every run comes to a last step. The room that the limit leaves is the measure. -/
theorem exists_endsAfter [World σ] (hq : QuietHooks σ) (hworld : RaisesOnly σ Raised.IsOrdinary)
    (hm : m.Unhosted) (hlive : m.phase.isFinal = false) (hsteps : m.steps ≤ m.maxSteps.toNat)
    {room : Nat} (hroom : m.maxSteps.toNat < m.steps + room) :
    ∃ n stop progress last, Walk n m stop ∧ step stop = .ok progress last ∧
      progress.goesOn = false ∧ stop.Stops last := by
  -- A live run without room would have counted beyond its limit.
  induction room generalizing m with
  | zero => omega
  | succ room ih =>
    obtain ⟨progress, next, hstep, hstops⟩ := step_ordinary hq hworld hm hlive
    cases hgoes : progress.goesOn with
    | false => exact ⟨0, m, progress, next, .refl m, hstep, hgoes, hstops hgoes⟩
    | true =>
      have hsame := SameSetup.of_step hm hstep
      obtain ⟨-, name, rest, category, memory, -, -, hlimit, -, hnext⟩ :=
        step_goesOn hq hm hstep hgoes
      have hcount : next.steps = m.steps + 1 := by rw [hnext]
      have hphase := step_goesOn_live hm hstep hgoes
      have hlimit' := hsame.maxSteps
      obtain ⟨n, stop, progress', last, hwalk, hlast⟩ :=
        ih (hsame.unhosted hm) hphase (by rw [hlimit']; omega) (by rw [hlimit']; omega)
      exact ⟨n + 1, stop, progress', last, .cons hstep hgoes hwalk, hlast⟩

/-- What a run gives is read off the machine that its last step leaves. -/
theorem EndsAfter.run_eq [World σ] {last : Machine σ} {n : Nat} (h : EndsAfter n m last)
    (hn : n ≤ m.maxSteps.toNat) : run m = outcome last := by
  obtain ⟨stop, progress, hwalk, hstep, hgoes⟩ := h
  have hallowance := lt_allowance m
  have hfinish : finishWithin 0 m.allowance m = .ok () last := by
    obtain ⟨fuel, hfuel⟩ : ∃ fuel, m.allowance = n + (fuel + 1) :=
      ⟨m.allowance - (n + 1), by omega⟩
    rw [hfuel, hwalk.finishWithin_eq, finishWithin_stops fuel hstep hgoes]
  unfold run finish
  rw [bind_apply_ok (get_apply m), bind_apply_ok hfinish]

theorem outcome_eq (m : Machine σ) :
    outcome m =
      match m.error with
      | some fault => .error (.fault fault) m
      | none => .ok m.memory.stack m := by
  unfold outcome
  rw [bind_apply_ok (get_apply m)]
  cases m.error <;> rfl

theorem stateOf_outcome (m : Machine σ) : stateOf (outcome m) = m := by
  rw [outcome_eq]
  cases m.error <;> rfl

/-- A run ends in one machine only. -/
theorem EndsAfter.unique [World σ] {last last' : Machine σ} {n n' : Nat} (h : EndsAfter n m last)
    (hn : n ≤ m.maxSteps.toNat) (h' : EndsAfter n' m last') (hn' : n' ≤ m.maxSteps.toNat) :
    last = last' := by
  have hsame := (h.run_eq hn).symm.trans (h'.run_eq hn')
  rw [← stateOf_outcome last, hsame, stateOf_outcome]

/-- What the last step has left tells how the run has ended. -/
theorem Stops.verdict {stop last : Machine σ} (h : stop.Stops last) (herror : stop.error = none)
    (hsteps : stop.steps = 0 ∨ (stop.steps : Int) ≤ stop.maxSteps) :
    (last.phase = .completed ∧ last.error = none ∨ last.phase = .failed ∧ last.error ≠ none) ∧
    (1 ≤ last.steps ∧ stop.maxSteps < last.steps → last.error = limitFault stop.maxSteps) ∧
    (Text.isWritable stop.maxSteps = true →
      (last.error = some (.programTooLong stop.maxSteps) ↔
        1 ≤ last.steps ∧ stop.maxSteps < last.steps)) := by
  cases h with
  | completed hphase hnone hcount =>
    rw [herror] at hnone
    rw [hnone]
    refine ⟨Or.inl ⟨hphase, rfl⟩, fun hover => by omega, fun _ => ?_⟩
    refine ⟨fun hlimit => ?_, fun hover => ?_⟩
    · cases hlimit
    · omega
  | failed hphase hfails hfault hcount =>
    rw [hfails]
    refine ⟨Or.inr ⟨hphase, Option.some_ne_none _⟩, fun hover => by omega,
      fun _ => ⟨fun hlimit => ?_, fun hover => by omega⟩⟩
    exact absurd (Option.some.inj hlimit) (hfault _)
  | overran hphase hfails hcount hlimit =>
    rw [hfails]
    refine ⟨Or.inr ⟨hphase, Raised.ending?_ofFault _⟩, fun _ => rfl, fun hwritable => ?_⟩
    rw [limitFault_of_isWritable hwritable]
    exact ⟨fun _ => by omega, fun _ => rfl⟩

/-! ## The count throughout a run -/

/-- The count of a run is within the limit, or one beyond it if the run is over. -/
structure Counted (limit : Nat) (m : Machine σ) : Prop where
  steps : m.steps ≤ limit + 1
  live : m.phase.isFinal = false → m.steps ≤ limit

theorem step_counted [World σ] (hq : QuietHooks σ) (hworld : RaisesOnly σ Raised.IsOrdinary)
    (hm : m.Unhosted) (h : m.Counted m.maxSteps.toNat) :
    (stateOf (step m)).Counted m.maxSteps.toNat := by
  cases hfinal : m.phase.isFinal with
  | true =>
    rw [step_final hfinal]
    exact h
  | false =>
    have hlive := h.live hfinal
    obtain ⟨progress, next, hstep, hstops⟩ := step_ordinary hq hworld hm hfinal
    rw [hstep, stateOf_ok]
    cases hgoes : progress.goesOn with
    | true =>
      obtain ⟨-, name, rest, category, memory, -, -, hlimit, -, hnext⟩ :=
        step_goesOn hq hm hstep hgoes
      have hsteps : next.steps = m.steps + 1 := by rw [hnext]
      exact ⟨by omega, fun _ => by omega⟩
    | false =>
      cases hstops hgoes with
      | completed _ _ hsteps => exact ⟨by omega, fun _ => by omega⟩
      | failed _ _ _ hsteps => exact ⟨by omega, fun _ => by omega⟩
      | overran hphase _ hsteps _ =>
        refine ⟨by omega, fun hlive' => ?_⟩
        rw [hphase] at hlive'
        cases hlive'

/-- No machine that a run reaches has counted more than one term beyond the limit. -/
theorem steps_le_of_reaches [World σ] (hq : QuietHooks σ)
    (hworld : RaisesOnly σ Raised.IsOrdinary) (hm : m.Unhosted) (h : m.Counted m.maxSteps.toNat)
    {m' : Machine σ} (hreaches : Reaches m m') :
    m'.steps ≤ m.maxSteps.toNat + 1 := by
  have hcounted : SameSetup m m' ∧ m'.Counted m.maxSteps.toNat := by
    refine hreaches.invariant
      (P := fun machine => SameSetup m machine ∧ machine.Counted m.maxSteps.toNat) ?_
      ⟨⟨rfl, rfl, rfl⟩, h⟩
    rintro machine ⟨hsame, hmachine⟩
    have hunhosted := hsame.unhosted hm
    refine ⟨hsame.trans (step_sameSetup hunhosted), ?_⟩
    rw [← hsame.maxSteps] at hmachine ⊢
    exact step_counted hq hworld hunhosted hmachine
  exact hcounted.2.steps

/-! ## Other limits -/

/-- The machine with another limit. -/
def withLimit (limit : Int) (m : Machine σ) : Machine σ := { m with maxSteps := limit }

/-- A walk is the same with another limit that it stays within. -/
theorem Walk.withLimit [World σ] (hq : QuietHooks σ) {m' : Machine σ} {n : Nat} (hm : m.Unhosted)
    (h : Walk n m m') {limit : Int} (hlimit : n = 0 ∨ ((m.steps + n : Nat) : Int) ≤ limit) :
    Walk n (m.withLimit limit) (m'.withLimit limit) := by
  induction h with
  | refl m => exact .refl _
  | @cons n m next last progress hstep hgoes _ ih =>
    have hsame := SameSetup.of_step hm hstep
    obtain ⟨hlive, name, rest, category, memory, hpending, heffect, -, -, hnext⟩ :=
      step_goesOn hq hm hstep hgoes
    have hsteps : next.steps = m.steps + 1 := by rw [hnext]
    have hroom : ((m.steps + 1 : Nat) : Int) ≤ limit := by omega
    have hfirst : Walk 1 (m.withLimit limit) (next.withLimit limit) := by
      have hwalk := walk_of_effect (m := m.withLimit limit) hq hm hlive hpending heffect hroom
      rw [hnext]
      exact hwalk
    have hrest := ih (hsame.unhosted hm) (by omega)
    rw [Nat.add_comm]
    exact hfirst.trans hrest

theorem Walk.split [World σ] {m' : Machine σ} {n k : Nat} (h : Walk (n + k) m m') :
    ∃ between, Walk n m between ∧ Walk k between m' := by
  induction n generalizing m with
  | zero =>
    rw [Nat.zero_add] at h
    exact ⟨m, .refl m, h⟩
  | succ n ih =>
    rw [Nat.add_right_comm] at h
    cases h with
    | cons hstep hgoes hrest =>
      obtain ⟨between, hfirst, hsecond⟩ := ih hrest
      exact ⟨between, .cons hstep hgoes hfirst, hsecond⟩

/-- With a limit that a walk passes, the first term beyond the limit is the last of the run. -/
theorem overruns_of_walk [World σ] (hq : QuietHooks σ) {limit : Int} {m' : Machine σ} {n : Nat}
    (hm : m.Unhosted) (hsteps : m.steps = 0) (h : Walk n m m') (hlimit : limit.toNat < n) :
    ∃ last, EndsAfter limit.toNat (m.withLimit limit) last ∧ last.error = limitFault limit := by
  obtain ⟨k, rfl⟩ : ∃ k, n = limit.toNat + (k + 1) := ⟨n - (limit.toNat + 1), by omega⟩
  obtain ⟨stop, hwalk, hbeyond⟩ := h.split
  have hunhosted := (hwalk.sameSetup hm).unhosted hm
  have hcount := hwalk.steps_eq hq hm
  have hwithin : limit.toNat = 0 ∨ ((m.steps + limit.toNat : Nat) : Int) ≤ limit := by omega
  cases hbeyond with
  | cons hstep hgoes _ =>
    obtain ⟨hlive, name, rest, category, memory, hpending, heffect, -⟩ :=
      step_goesOn hq hunhosted hstep hgoes
    -- The same term is executed with the limit, and then the count is beyond it.
    have hterm := step_quiet (m := stop.withLimit limit) hq hunhosted hlive hpending
    have heffect' : (stop.withLimit limit).effectOf name rest = .ok category memory := heffect
    have hpast : (stop.withLimit limit).maxSteps <
        (((stop.withLimit limit).steps + 1 : Nat) : Int) := by
      show limit < ((stop.steps + 1 : Nat) : Int)
      omega
    simp only [heffect', if_pos hpast] at hterm
    obtain ⟨last, hsettle, -, herror, -⟩ := settle_limit limit
      { stop.withLimit limit with
        memory := memory, steps := (stop.withLimit limit).steps + 1, phase := .running }
    exact ⟨last, ⟨_, _, hwalk.withLimit hq hm hwithin, hterm.trans hsettle, rfl⟩, herror⟩

/-- A program that completes under some limit completes in as many steps under every limit that
allows for them, and fails for every other. -/
theorem endsAfter_withLimit [World σ] (hq : QuietHooks σ) (hm : m.Unhosted) {limit : Int}
    {terms : List String} {stack stack' : List Int} {done : Machine σ}
    (hdone : run ((m.withLimit limit).load terms stack) = .ok stack' done) :
    (done.steps ≤ m.maxSteps.toNat → ∃ last, EndsAfter done.steps (m.load terms stack) last ∧
      last.phase = .completed ∧ last.memory.stack = stack' ∧ last.steps = done.steps) ∧
    (m.maxSteps.toNat < done.steps → ∃ last, EndsAfter m.maxSteps.toNat (m.load terms stack) last ∧
      last.error = limitFault m.maxSteps) := by
  have hunhosted : (m.withLimit limit).Unhosted := hm
  have hloaded : ((m.withLimit limit).load terms stack).Unhosted := hm
  obtain ⟨stop, hwalk, hpending, hstack, -, hsteps, -⟩ := walk_of_run_ok hq hunhosted hdone
  refine ⟨fun hless => ?_, fun hmore => overruns_of_walk hq hloaded rfl hwalk hmore⟩
  have hroom : done.steps = 0 ∨ ((0 + done.steps : Nat) : Int) ≤ m.maxSteps := by omega
  have hwithin : Walk done.steps (m.load terms stack) (stop.withLimit m.maxSteps) :=
    hwalk.withLimit hq hloaded hroom
  have hlive : (stop.withLimit m.maxSteps).phase.isFinal = false := (hwalk.live hq hloaded rfl).1
  exact ⟨_, ⟨_, .finished, hwithin, step_end hlive hpending, rfl⟩, rfl, hstack, hsteps⟩

/-! ## The bound -/

/-- **The limit of steps bounds every run, and exactly.** Whatever the definitions, the terms, the
stack and the limit: a run terminates, after at most one term more than its limit; its count never
gets further; and it ends completed, or failed with an error. A run that ends with a count that is
positive and beyond the limit fails with the `limitFault`; if the limit can be written, this is the
fault `programTooLong`, and a run fails with it exactly if it ends so. A program that completes
under some limit completes under every limit that is not less than its steps, and fails for every
other. -/
theorem run_bounded [World σ] (hq : QuietHooks σ) (hworld : RaisesOnly σ Raised.IsOrdinary)
    (hm : m.Unhosted) (terms : List String) (stack : List Int) :
    ∃ n last, n ≤ m.maxSteps.toNat ∧ EndsAfter n (m.load terms stack) last ∧
    run (m.load terms stack) = outcome last ∧
    (∀ m', Reaches (m.load terms stack) m' → m'.steps ≤ m.maxSteps.toNat + 1) ∧
    (last.phase = .completed ∧ last.error = none ∨ last.phase = .failed ∧ last.error ≠ none) ∧
    (1 ≤ last.steps ∧ m.maxSteps < last.steps → last.error = limitFault m.maxSteps) ∧
    (Text.isWritable m.maxSteps = true →
      (last.error = some (.programTooLong m.maxSteps) ↔
        1 ≤ last.steps ∧ m.maxSteps < last.steps)) ∧
    ∀ limit done stack', run ((m.withLimit limit).load terms stack) = .ok stack' done →
      (done.steps ≤ m.maxSteps.toNat →
        last.phase = .completed ∧ last.memory.stack = stack' ∧ last.steps = done.steps) ∧
      (m.maxSteps.toNat < done.steps → last.error = limitFault m.maxSteps) := by
  have hunhosted : (m.load terms stack).Unhosted := (load_sameSetup m terms stack).unhosted hm
  have hroom : (m.load terms stack).maxSteps.toNat <
      (m.load terms stack).steps + (m.maxSteps.toNat + 1) := by
    show m.maxSteps.toNat < 0 + (m.maxSteps.toNat + 1)
    omega
  obtain ⟨n, stop, progress, last, hwalk, hstep, hgoes, hstops⟩ :=
    exists_endsAfter hq hworld hunhosted rfl (Nat.zero_le _) hroom
  have hends : EndsAfter n (m.load terms stack) last := ⟨stop, progress, hwalk, hstep, hgoes⟩
  have hstop : stop.steps = n := (hwalk.steps_eq hq hunhosted).trans (Nat.zero_add n)
  have hlimit : stop.maxSteps = m.maxSteps := (hwalk.sameSetup hunhosted).maxSteps
  have hwithin : n = 0 ∨ ((0 + n : Nat) : Int) ≤ m.maxSteps := hwalk.steps_le hq hunhosted
  have hn : n ≤ m.maxSteps.toNat := by omega
  have hrun := hends.run_eq hn
  have herror : stop.error = none := (hwalk.live hq hunhosted rfl).2
  obtain ⟨hphase, hover, hiff⟩ := hstops.verdict herror (by rw [hstop, hlimit]; omega)
  rw [hlimit] at hover hiff
  have hcounted : (m.load terms stack).Counted m.maxSteps.toNat :=
    ⟨Nat.zero_le _, fun _ => Nat.zero_le _⟩
  refine ⟨n, last, hn, hends, hrun, fun m' => steps_le_of_reaches hq hworld hunhosted hcounted,
    hphase, hover, hiff, fun limit done stack' hdone => ?_⟩
  obtain ⟨hcompletes, hoverruns⟩ := endsAfter_withLimit hq hm hdone
  refine ⟨fun hless => ?_, fun hmore => ?_⟩
  · obtain ⟨other, hother, hcompleted⟩ := hcompletes hless
    rw [hends.unique hn hother hless]
    exact hcompleted
  · obtain ⟨other, hother, hfails⟩ := hoverruns hmore
    rw [hends.unique hn hother (Nat.le_refl _)]
    exact hfails

theorem raisesOnly_void (permitted : Raised → Prop) : RaisesOnly Void permitted := by
  refine ⟨?_, ?_, ?_, ?_, ?_⟩
  · intro direction w raised h
    cases h
  · intro cell w raised h
    cases h
  · intro w raised h
    cases h
  · intro stack w raised h
    cases h
  · intro steps w raised h
    cases h

/-- A definition that calls itself is stopped by the limit of six at its seventh step. A program of
three steps completes under the limit of three, and so fails under the limit of two. -/
theorem run_bounded_loop :
    (∃ last, run ((plain ({} : Void) 6).load ["DEF", "LOOP", "UP", "LOOP", "END", "LOOP"] []) =
      outcome last ∧ last.steps = 7 ∧ last.error = some (.programTooLong 6)) ∧
    ∃ done, run ((plain ({} : Void) 3).load ["PUSH", "1", "UP", "DUP"] []) = .ok [1, 1] done ∧
      done.steps = 3 ∧
      ∃ last, run ((plain ({} : Void) 2).load ["PUSH", "1", "UP", "DUP"] []) = outcome last ∧
        last.error = limitFault 2 := by
  have hunhosted : ∀ limit, (plain ({} : Void) limit).Unhosted :=
    fun limit => catalogue_unhosted rfl
  have hworld := raisesOnly_void Raised.IsOrdinary
  have hloop : (stateOf (run ((plain ({} : Void) 6).load
      ["DEF", "LOOP", "UP", "LOOP", "END", "LOOP"] []))).steps = 7 := by
    decide +kernel
  have hvalue : valueOf (run ((plain ({} : Void) 3).load ["PUSH", "1", "UP", "DUP"] [])) =
      some [1, 1] := by
    decide +kernel
  have hthree : (stateOf (run ((plain ({} : Void) 3).load
      ["PUSH", "1", "UP", "DUP"] []))).steps = 3 := by
    decide +kernel
  have hwritable : Text.isWritable 6 = true := by decide +kernel
  refine ⟨?_, ?_⟩
  · obtain ⟨n, last, -, -, hrun, -, -, -, hiff, -⟩ := run_bounded quietHooks_void hworld
      (hunhosted 6) ["DEF", "LOOP", "UP", "LOOP", "END", "LOOP"] []
    rw [hrun, stateOf_outcome] at hloop
    refine ⟨last, hrun, hloop, (hiff hwritable).mpr ?_⟩
    rw [hloop]
    decide
  · have hdone := eq_ok_of_valueOf hvalue
    obtain ⟨n, last, -, -, hrun, -, -, -, -, hexact⟩ := run_bounded quietHooks_void hworld
      (hunhosted 2) ["PUSH", "1", "UP", "DUP"] []
    refine ⟨_, hdone, hthree, last, hrun, (hexact 3 _ _ hdone).2 ?_⟩
    rw [hthree]
    decide

/-- Under a limit with too many digits, a run ends beyond the limit without the fault for it: what
ends it is the failure to write the limit. -/
theorem run_unwritable_limit :
    QuietHooks Void ∧ RaisesOnly Void Raised.IsOrdinary ∧
    (plain ({} : Void) (-Text.firstTooLong)).Unhosted ∧
    let last := stateOf (run ((plain ({} : Void) (-Text.firstTooLong)).load ["PUSH", "1"] []))
    last.steps = 1 ∧ (-Text.firstTooLong : Int) < last.steps ∧
      last.error = some (.hostFailure (.tooManyDigits none) true) := by
  refine ⟨quietHooks_void, raisesOnly_void _, catalogue_unhosted rfl, ?_⟩
  decide +kernel

end Machine

end StackRover
