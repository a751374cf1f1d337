import StackRover.Proofs.Extension
import StackRover.Proofs.Runs

/-!
# Runs that go in step

A machine extends another if its memory does and its run has taken some steps before. In a quiet
world the two go in step: as long as the smaller machine goes on, so does the larger one, and where
nothing follows the pending terms it also ends in the same way, unless the smaller one fails for
want of values on its stack.

* `effectOf_extends`: one term.
* `step_extends`: one step.
* `strides_extends`, `walk_extends`: the steps up to the completion of the smaller run.
* `finishWithin_extends`: a whole run.
-/

namespace StackRover

/-- The run was ended by an operation that needs more values than the stack holds. -/
def Fault.IsUnderflow (fault : Fault) : Prop :=
  ∃ name required actual, fault = .stackUnderflow name required actual

namespace Machine

variable {σ : Type}

/-- The second machine has `below` under its stack, `after` behind its pending terms and `earlier`
steps more; the phase of its run is left open. -/
structure Extends (below : List Int) (after : List String) (earlier : Nat) (m m' : Machine σ) :
    Prop where
  memory : m.memory.Extends below after m'.memory
  operations : m'.operations = m.operations
  maxSteps : m'.maxSteps = m.maxSteps
  steps : m'.steps = earlier + m.steps
  error : m'.error = m.error

variable {below : List Int} {after : List String} {earlier : Nat} {m m' : Machine σ}

/-! ## One term -/

theorem Extends.meaning? (h : Extends below after earlier m m') (name : String) :
    m'.meaning? name = m.meaning? name := by
  unfold Machine.meaning?
  rw [h.memory.definitions, h.operations]

theorem Extends.looked (h : Extends below after earlier m m') :
    m.looked.Extends below after m'.looked := by
  refine ⟨h.memory.stack, h.memory.pending, h.memory.definitions, h.memory.dice, h.memory.world, ?_⟩
  rw [shown_looked, shown_looked]
  exact h.memory.shown

theorem Extends.taken (h : Extends below after earlier m m') (name : String)
    (rest : List String) :
    (m.taken name rest).Extends below after (m'.taken name (rest ++ after)) := by
  refine ⟨h.memory.stack, rfl, h.memory.definitions, h.memory.dice, h.memory.world, ?_⟩
  rw [shown_taken, shown_taken]
  exact h.memory.shown

theorem isWritable_of_le {n : Int} (h : n.natAbs ≤ Text.digitLimit) :
    Text.isWritable n = true := by
  have hpow : ∀ k : Nat, k < Nat.pow 10 k := fun k => Nat.lt_pow_self (by decide)
  unfold Text.isWritable Text.firstTooLong
  exact decide_eq_true (Nat.lt_of_le_of_lt h (hpow Text.digitLimit))

theorem minDepth_le (meaning : Meaning) : meaning.minDepth ≤ 3 := by
  cases meaning with
  | body => exact Nat.zero_le 3
  | builtin b => cases b <;> simp [Meaning.minDepth, Builtin.minDepth]

theorem ofFault_underflow (name : String) {required actual : Nat} (h : actual < required)
    (hrequired : required ≤ 3) :
    Raised.ofFault (.stackUnderflow name required actual) =
      .fault (.stackUnderflow name required actual) := by
  apply Raised.ofFault_of_isWritable
  have hlimit : Text.digitLimit = 4300 := rfl
  simp only [Fault.isWritable, Fault.numbers, List.all_cons, List.all_nil, Bool.and_true,
    Bool.and_eq_true]
  exact ⟨isWritable_of_le (by omega), isWritable_of_le (by omega)⟩

theorem Meaning.task_extends [World σ] {m m' : Memory σ} (h : m.Extends below after m')
    {meaning : Meaning} (hdepth : meaning.minDepth ≤ m.stack.length) :
    Follows (Memory.Extends below after) (fun _ => after = []) (meaning.task m)
      (meaning.task m') := by
  cases meaning with
  | body terms =>
    refine .ok () ⟨h.stack, ?_, h.definitions, h.dice, h.world, h.shown⟩
    simp only [h.pending, List.append_assoc]
  | builtin b => exact (Builtin.perform_extends h hdepth).mono fun _ hafter _ => hafter

/-- A term has the same effect in both machines. What it raises is the same only if nothing follows
the pending terms, and a want of values need not be one with more values below. -/
theorem effectOf_extends [World σ] (h : Extends below after earlier m m') (name : String)
    (rest : List String) :
    Follows (Memory.Extends below after)
      (fun raised => after = [] ∧
        (below = [] ∨ ∀ fault, raised = .fault fault → ¬ fault.IsUnderflow))
      (m.effectOf name rest) (m'.effectOf name (rest ++ after)) := by
  unfold effectOf
  rw [h.meaning?]
  cases m.meaning? name with
  | none => exact .error _ h.looked
  | some meaning =>
    simp only
    by_cases hdepth : meaning.minDepth ≤ m.memory.stack.length
    · have hdepth' : meaning.minDepth ≤ m'.memory.stack.length := by
        rw [h.memory.stack, List.length_append]
        omega
      rw [if_pos hdepth, if_pos hdepth']
      have htask := Meaning.task_extends (h.taken name rest) hdepth
      cases hm : meaning.task (m.taken name rest) with
      | ok _ memory =>
        rw [hm] at htask
        obtain ⟨memory', hm', hmemory⟩ := htask
        rw [hm']
        exact .ok _ hmemory
      | error raised memory =>
        rw [hm] at htask
        intro hbinding
        obtain ⟨memory', hm', hmemory⟩ := htask hbinding.1
        rw [hm']
        exact ⟨memory', rfl, hmemory⟩
    · rw [if_neg hdepth]
      intro hbinding
      rcases hbinding.2 with hbelow | hother
      · have hlength : m'.memory.stack.length = m.memory.stack.length := by
          rw [h.memory.stack, hbelow, List.append_nil]
        rw [hlength, if_neg hdepth]
        exact ⟨_, rfl, h.looked⟩
      · rw [ofFault_underflow name (by omega) (minDepth_le meaning)] at hother
        exact absurd ⟨_, _, _, rfl⟩ (hother _ rfl)

/-! ## One step -/

/-- The two machines stand at the same point of their runs. -/
def InStep (below : List Int) (after : List String) (earlier : Nat) (m m' : Machine σ) : Prop :=
  Extends below after earlier m m' ∧ m'.phase = m.phase

theorem settle_extends (h : Extends below after earlier m m') (hphase : m'.phase = m.phase)
    (raised : Raised) :
    Follows (InStep below after earlier) (fun _ => True) (settle raised m) (settle raised m') := by
  unfold settle
  cases raised.ending? with
  | none => exact .error _ ⟨h, hphase⟩
  | some fault =>
    refine .ok _ ⟨⟨?_, h.operations, h.maxSteps, h.steps, rfl⟩, rfl⟩
    exact ⟨h.memory.stack, h.memory.pending, h.memory.definitions, h.memory.dice, h.memory.world,
      h.memory.shown⟩

theorem error_settle {raised : Raised} {fault : Fault} (h : raised = .fault fault)
    (m : Machine σ) : (stateOf (settle raised m)).error = some fault := by
  subst h
  rfl

/-- The step of the smaller machine is one that the larger machine has to follow: it goes on, or
nothing follows the pending terms and more values below make no difference. -/
def Followed [World σ] (below : List Int) (after : List String) (m : Machine σ) : Prop :=
  (∃ progress next, step m = .ok progress next ∧ progress.goesOn = true) ∨
    after = [] ∧ (below = [] ∨ ∀ fault, (stateOf (step m)).error = some fault →
      ¬ fault.IsUnderflow)

/-- The larger machine has the steps left that the smaller one takes. -/
def Roomy (earlier : Nat) (m : Machine σ) (steps : Nat) : Prop :=
  earlier = 0 ∨ ((earlier + steps : Nat) : Int) ≤ m.maxSteps

theorem Roomy.mono {steps steps' : Nat} (h : Roomy earlier m steps') (hle : steps ≤ steps') :
    Roomy earlier m steps := by
  rcases h with hzero | hroom
  · exact Or.inl hzero
  · exact Or.inr (by omega)

theorem Roomy.of_sameSetup {steps : Nat} (h : Roomy earlier m steps) (hsame : SameSetup m m') :
    Roomy earlier m' steps := by
  unfold Roomy
  rw [hsame.maxSteps]
  exact h

theorem Extends.unhosted (h : Extends below after earlier m m') (hm : m.Unhosted) :
    m'.Unhosted := by
  intro operation hmem
  rw [h.operations] at hmem
  exact hm operation hmem

/-- With room for the earlier steps, both machines pass the limit or none does. -/
theorem Extends.passes_limit (h : Extends below after earlier m m')
    (hroom : Roomy earlier m (m.steps + 1)) :
    m'.maxSteps < ((m'.steps + 1 : Nat) : Int) ↔ m.maxSteps < ((m.steps + 1 : Nat) : Int) := by
  rw [h.maxSteps, h.steps]
  rcases hroom with hzero | hle
  · rw [hzero, Nat.zero_add]
  · omega

/-- The step of a term that raises nothing. -/
theorem step_extends_of_ok [World σ] (hq : QuietHooks σ) (hm : m.Unhosted)
    (h : Extends below after earlier m m') (hlive : m.phase.isFinal = false)
    (hlive' : m'.phase.isFinal = false) {name : String} {rest : List String}
    (hpending : m.memory.pending = name :: rest) {category : Category} {memory : Memory σ}
    (heffect : m.effectOf name rest = .ok category memory)
    (hroom : Roomy earlier m (stateOf (step m)).steps) :
    Follows (InStep below after earlier) (fun _ => True) (step m) (step m') := by
  have hpending' : m'.memory.pending = name :: (rest ++ after) := by
    rw [h.memory.pending, hpending]
    rfl
  have hfollows := effectOf_extends h name rest
  rw [heffect] at hfollows
  obtain ⟨memory', heffect', hmemory⟩ := hfollows
  have hstep := step_quiet hq hm hlive hpending
  have hstep' := step_quiet hq (h.unhosted hm) hlive' hpending'
  simp only [heffect] at hstep
  simp only [heffect'] at hstep'
  have hsteps : (stateOf (step m)).steps = m.steps + 1 := by
    rw [hstep]
    split
    · exact settle_steps _ _
    · rfl
  rw [hsteps] at hroom
  have hlimit := h.passes_limit hroom
  have hsteps' : m'.steps + 1 = earlier + (m.steps + 1) := by
    rw [h.steps, Nat.add_assoc]
  rw [hstep, hstep']
  by_cases hover : m.maxSteps < ((m.steps + 1 : Nat) : Int)
  · have hraised : Raised.ofFault (.programTooLong m'.maxSteps) =
        Raised.ofFault (.programTooLong m.maxSteps) := by rw [h.maxSteps]
    have hnext : Extends below after earlier
        { m with memory := memory, steps := m.steps + 1, phase := .running }
        { m' with memory := memory', steps := m'.steps + 1, phase := .running } :=
      ⟨hmemory, h.operations, h.maxSteps, hsteps', h.error⟩
    rw [if_pos hover, if_pos (hlimit.mpr hover), hraised]
    exact settle_extends hnext rfl _
  · rw [if_neg hover, if_neg (mt hlimit.mp hover)]
    exact .ok _ ⟨⟨hmemory, h.operations, h.maxSteps, hsteps', h.error⟩, rfl⟩

/-- The step of a term that raises something. It does not go on, so nothing follows the pending
terms. -/
theorem step_extends_of_error [World σ] (hq : QuietHooks σ) (hm : m.Unhosted)
    (h : Extends below after earlier m m') (hlive : m.phase.isFinal = false)
    (hlive' : m'.phase.isFinal = false) {name : String} {rest : List String}
    (hpending : m.memory.pending = name :: rest) {raised : Raised} {memory : Memory σ}
    (heffect : m.effectOf name rest = .error raised memory) (hfollowed : Followed below after m) :
    Follows (InStep below after earlier) (fun _ => True) (step m) (step m') := by
  have hstep := step_quiet hq hm hlive hpending
  simp only [heffect] at hstep
  obtain ⟨progress, next, hprogress, hgoes⟩ | ⟨hafter, hbelow⟩ := hfollowed
  · rw [hstep] at hprogress
    rw [(settle_ok hprogress).1] at hgoes
    cases hgoes
  · have hbinding : below = [] ∨ ∀ fault, raised = .fault fault → ¬ fault.IsUnderflow := by
      rcases hbelow with hbelow | hother
      · exact Or.inl hbelow
      · refine Or.inr fun fault hfault => hother fault ?_
        rw [hstep]
        exact error_settle hfault _
    have hpending' : m'.memory.pending = name :: (rest ++ after) := by
      rw [h.memory.pending, hpending]
      rfl
    have hfollows := effectOf_extends h name rest
    rw [heffect] at hfollows
    obtain ⟨memory', heffect', hmemory⟩ := hfollows ⟨hafter, hbinding⟩
    have hnext : Extends below after earlier { m with memory := memory, phase := .running }
        { m' with memory := memory', phase := .running } :=
      ⟨hmemory, h.operations, h.maxSteps, h.steps, h.error⟩
    rw [hstep, step_quiet hq (h.unhosted hm) hlive' hpending', heffect']
    exact settle_extends hnext rfl _

/-- The two machines take the same step. -/
theorem step_extends [World σ] (hq : QuietHooks σ) (hm : m.Unhosted)
    (h : Extends below after earlier m m') (hlive : m.phase.isFinal = false)
    (hlive' : m'.phase.isFinal = false) (hfollowed : Followed below after m)
    (hroom : Roomy earlier m (stateOf (step m)).steps) :
    Follows (InStep below after earlier) (fun _ => True) (step m) (step m') := by
  cases hpending : m.memory.pending with
  | nil =>
    have hstep := step_end hlive hpending
    -- Completion is no step that goes on, so nothing follows.
    obtain ⟨progress, next, hprogress, hgoes⟩ | ⟨hafter, -⟩ := hfollowed
    · rw [hstep] at hprogress
      cases hprogress
      cases hgoes
    · have hpending' : m'.memory.pending = [] := by
        rw [h.memory.pending, hpending, hafter]
        rfl
      rw [hstep, step_end hlive' hpending']
      refine .ok _ ⟨⟨?_, h.operations, h.maxSteps, h.steps, h.error⟩, rfl⟩
      exact ⟨h.memory.stack, h.memory.pending, h.memory.definitions, h.memory.dice,
        h.memory.world, h.memory.shown⟩
  | cons name rest =>
    cases heffect : m.effectOf name rest with
    | ok category memory =>
      exact step_extends_of_ok hq hm h hlive hlive' hpending heffect hroom
    | error raised memory =>
      exact step_extends_of_error hq hm h hlive hlive' hpending heffect hfollowed

/-! ## Many steps -/

/-- The larger machine takes the strides of the smaller one. -/
theorem strides_extends [World σ] (hq : QuietHooks σ) {n k : Nat} {stop : Machine σ}
    (hm : m.Unhosted) (h : Extends below after earlier m m') (hlive' : m'.phase.isFinal = false)
    (hstrides : Strides n k m stop) (hroom : Roomy earlier m stop.steps) :
    ∃ stop', Strides n k m' stop' ∧ Extends below after earlier stop stop' ∧
      stop'.phase.isFinal = false := by
  induction hstrides generalizing m' with
  | refl m => exact ⟨m', .refl m', h, hlive'⟩
  | @cons n k m next stop progress hstep hgoes hrest ih =>
    have hsame := SameSetup.of_step hm hstep
    have hunhosted : next.Unhosted := hsame.unhosted hm
    have hsteps := hrest.walk.steps_eq hq hunhosted
    obtain ⟨hlive, name, rest, category, memory, -, -, -, -, hnext⟩ :=
      step_goesOn hq hm hstep hgoes
    have hroom' : Roomy earlier m (stateOf (step m)).steps := by
      rw [hstep]
      exact hroom.mono (by rw [stateOf_ok]; omega)
    have hfollows :=
      step_extends hq hm h hlive hlive' (Or.inl ⟨progress, next, hstep, hgoes⟩) hroom'
    rw [hstep] at hfollows
    obtain ⟨next', hstep', hext, hphase⟩ := hfollows
    have hlive'' : next'.phase.isFinal = false := by
      rw [hphase, hnext]
      exact Category.isFinal_phase category
    obtain ⟨stop', hstrides', hstop⟩ := ih hunhosted hext hlive'' (hroom.of_sameSetup hsame)
    exact ⟨stop', .cons hstep' hgoes hstrides', hstop⟩

/-- The larger machine takes the walk of the smaller one. -/
theorem walk_extends [World σ] (hq : QuietHooks σ) {n : Nat} {stop : Machine σ} (hm : m.Unhosted)
    (h : Extends below after earlier m m') (hlive' : m'.phase.isFinal = false)
    (hwalk : Walk n m stop) (hroom : Roomy earlier m stop.steps) :
    ∃ stop', Walk n m' stop' ∧ Extends below after earlier stop stop' ∧
      stop'.phase.isFinal = false := by
  obtain ⟨k, hstrides⟩ := hwalk.exists_strides
  obtain ⟨stop', hstrides', hstop⟩ := strides_extends hq hm h hlive' hstrides hroom
  exact ⟨stop', hstrides'.walk, hstop⟩

/-- The larger machine finishes its run in the way of the smaller one. -/
theorem finishWithin_extends [World σ] (hq : QuietHooks σ) {fuel : Nat} (hm : m.Unhosted)
    (h : Extends below [] earlier m m')
    (hphase : m'.phase = m.phase ∨
      m.phase.isFinal = false ∧ m'.phase.isFinal = false ∧ 0 < fuel)
    (hunderflow : below = [] ∨ ∀ fault, (stateOf (finishWithin 0 fuel m)).error = some fault →
      ¬ fault.IsUnderflow)
    (hroom : Roomy earlier m (stateOf (finishWithin 0 fuel m)).steps) :
    Follows (InStep below [] earlier) (fun _ => True) (finishWithin 0 fuel m)
      (finishWithin 0 fuel m') := by
  induction fuel generalizing m m' with
  | zero =>
    rcases hphase with hphase | ⟨-, -, hpos⟩
    · exact .error _ ⟨h, hphase⟩
    · omega
  | succ fuel ih =>
    cases hfinal : m.phase.isFinal with
    | true =>
      have hphase' : m'.phase = m.phase := by
        rcases hphase with hphase | ⟨hlive, -, -⟩
        · exact hphase
        · rw [hfinal] at hlive
          cases hlive
      have hstep := step_final hfinal
      have hstep' := step_final (m := m') (by rw [hphase', hfinal])
      have hstops :
          Progress.goesOn (if m.phase = .completed then .finished else .failed) = false := by
        split <;> rfl
      rw [hphase'] at hstep'
      rw [finishWithin_stops fuel hstep hstops, finishWithin_stops fuel hstep' hstops]
      exact .ok () ⟨h, hphase'⟩
    | false =>
      have hlive' : m'.phase.isFinal = false := by
        rcases hphase with hphase | ⟨-, hlive', -⟩
        · rw [hphase, hfinal]
        · exact hlive'
      cases hstep : step m with
      | error raised next =>
        rw [finishWithin_raises fuel hstep] at hunderflow hroom ⊢
        have hfollows := step_extends hq hm h hfinal hlive'
          (Or.inr ⟨rfl, by rw [hstep]; exact hunderflow⟩) (by rw [hstep]; exact hroom)
        rw [hstep] at hfollows
        obtain ⟨next', hstep', hnext⟩ := hfollows trivial
        rw [finishWithin_raises fuel hstep']
        exact .error raised hnext
      | ok progress next =>
        cases hgoes : progress.goesOn with
        | false =>
          rw [finishWithin_stops fuel hstep hgoes] at hunderflow hroom ⊢
          have hfollows := step_extends hq hm h hfinal hlive'
            (Or.inr ⟨rfl, by rw [hstep]; exact hunderflow⟩) (by rw [hstep]; exact hroom)
          rw [hstep] at hfollows
          obtain ⟨next', hstep', hnext⟩ := hfollows
          rw [finishWithin_stops fuel hstep' hgoes]
          exact .ok () hnext
        | true =>
          have hsame := SameSetup.of_step hm hstep
          have hunhosted := hsame.unhosted hm
          have hle := steps_le_finishWithin hq fuel hunhosted
          rw [finishWithin_goesOn fuel hstep hgoes] at hunderflow hroom ⊢
          have hroom' : Roomy earlier m (stateOf (step m)).steps := by
            rw [hstep]
            exact hroom.mono hle
          have hfollows := step_extends hq hm h hfinal hlive'
            (Or.inl ⟨progress, next, hstep, hgoes⟩) hroom'
          rw [hstep] at hfollows
          obtain ⟨next', hstep', hext, hphase'⟩ := hfollows
          rw [finishWithin_goesOn fuel hstep' hgoes]
          exact ih hunhosted hext (Or.inl hphase') hunderflow (hroom.of_sameSetup hsame)

/-! ## Loading and running -/

theorem load_sameSetup (m : Machine σ) (terms : List String) (stack : List Int) :
    SameSetup m (m.load terms stack) := ⟨rfl, rfl, rfl⟩

theorem load_shown (m : Machine σ) (terms : List String) (stack : List Int) :
    (m.load terms stack).memory.shown = m.memory.shown := by
  simp only [load, Memory.shown]
  split <;> rfl

theorem load_extends (m : Machine σ) (terms after : List String) (stack below : List Int) :
    Extends below after 0 (m.load terms stack) (m.load (terms ++ after) (stack ++ below)) := by
  refine ⟨⟨rfl, rfl, rfl, rfl, rfl, ?_⟩, rfl, rfl, rfl, rfl⟩
  rw [load_shown, load_shown]

/-- The second run ends like the first: it gives the same stack with `below` under it, or raises the
same, and the machines that are left stand in step. -/
def EndsAlike (below : List Int) (earlier : Nat) :
    EStateM.Result Raised (Machine σ) (List Int) → EStateM.Result Raised (Machine σ) (List Int) →
      Prop
  | .ok stack last, result =>
    ∃ last', result = .ok (stack ++ below) last' ∧ InStep below [] earlier last last'
  | .error raised last, result =>
    ∃ last', result = .error raised last' ∧ InStep below [] earlier last last'

theorem allowance_congr (h : m'.maxSteps = m.maxSteps) : m'.allowance = m.allowance := by
  unfold allowance
  rw [h]

theorem lt_allowance (m : Machine σ) : m.maxSteps.toNat + 1 < m.allowance := by
  unfold allowance
  have hle := Nat.le_mul_of_pos_right (m.maxSteps.toNat + 2) (show 0 < restarts by decide)
  omega

theorem stateOf_run [World σ] (m : Machine σ) :
    stateOf (run m) = stateOf (finishWithin 0 m.allowance m) := by
  rw [run_eq]
  cases finishWithin 0 m.allowance m with
  | error raised last => rfl
  | ok _ last =>
    simp only
    cases last.error <;> rfl

/-- Two driving loops that go in step make two runs that end alike. -/
theorem run_endsAlike [World σ] {start : Machine σ} {fuel : Nat}
    (hstart : finishWithin 0 start.allowance start = finishWithin 0 fuel m')
    (h : Follows (InStep below [] earlier) (fun _ => True) (finishWithin 0 m.allowance m)
      (finishWithin 0 fuel m')) :
    EndsAlike below earlier (run m) (run start) := by
  rw [run_eq m, run_eq start, hstart]
  cases hfinish : finishWithin 0 m.allowance m with
  | error raised last =>
    rw [hfinish] at h
    obtain ⟨last', hfinish', hlast⟩ := h trivial
    rw [hfinish']
    exact ⟨last', rfl, hlast⟩
  | ok _ last =>
    rw [hfinish] at h
    obtain ⟨last', hfinish', hlast⟩ := h
    rw [hfinish']
    have herror : last'.error = last.error := hlast.1.error
    simp only [herror]
    cases last.error with
    | some fault => exact ⟨last', rfl, hlast⟩
    | none =>
      refine ⟨last', ?_, hlast⟩
      rw [hlast.1.memory.stack]

end Machine

end StackRover
