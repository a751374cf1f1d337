import StackRover.Proofs.Conclusion
import StackRover.Proofs.StepLimit

/-!
# The courses of driving loops

Both driving loops take steps as long as these report that there is more to do: a turn goes on while
the steps are ongoing, a run also while they are paused. A course is the list of the machines at
which a loop takes its steps. Every step that goes on is counted within the limit, so courses are
short, the allowance of a loop always lasts, and a run is a sequence of turns.

* `exists_course`, `Course.length_le`: every loop comes to an end, within the limit.
* `Course.advance_eq`, `Course.run_eq`: turns and runs as courses.
* `Course.turns`: a run as a sequence of turns.
* `Steady.exists_strides`: every run comes to its last step.
-/

namespace StackRover

variable {σ : Type} {permitted : Raised → Prop}

/-- Whether a step has executed a term and the turn goes on. -/
def Progress.isOngoing : Progress → Bool
  | .ongoing => true
  | .paused | .finished | .failed => false

theorem Progress.goesOn_of_isOngoing {progress : Progress} (h : progress.isOngoing = true) :
    progress.goesOn = true := by
  cases progress with
  | ongoing => rfl
  | paused | finished | failed => cases h

namespace Machine

/-- Steps are taken at the machines of the list, the first of which is given. All but the last
report what makes a loop go on, and the last step has the result. -/
inductive Course [World σ] (goes : Progress → Bool) :
    List (Machine σ) → Machine σ → EStateM.Result Raised (Machine σ) Progress → Prop
  | stop {m : Machine σ}
      (hstop : ∀ progress next, step m = .ok progress next → goes progress = false) :
      Course goes [m] m (step m)
  | cons {m next : Machine σ} {machines : List (Machine σ)} {progress : Progress}
      {result : EStateM.Result Raised (Machine σ) Progress}
      (hstep : step m = .ok progress next) (hgoes : goes progress = true)
      (hrest : Course goes machines next result) : Course goes (m :: machines) m result

/-- Turns are taken until one ends otherwise than paused: so many end paused, and the last has the
result. -/
inductive Turns [World σ] :
    Nat → Machine σ → EStateM.Result Raised (Machine σ) Progress → Prop
  | last {m : Machine σ} (hlast : ∀ next, advance m ≠ .ok .paused next) : Turns 0 m (advance m)
  | turn {n : Nat} {m next : Machine σ} {result : EStateM.Result Raised (Machine σ) Progress}
      (hturn : advance m = .ok .paused next) (hrest : Turns n next result) : Turns (n + 1) m result

/-- What the driving loop of a run makes of the result of its last step. -/
def finishedWith :
    EStateM.Result Raised (Machine σ) Progress → EStateM.Result Raised (Machine σ) Unit
  | .ok _ last => .ok () last
  | .error raised last => .error raised last

/-- What a run makes of the result of its last step. -/
def outcomeOf :
    EStateM.Result Raised (Machine σ) Progress → EStateM.Result Raised (Machine σ) (List Int)
  | .ok _ last => outcome last
  | .error raised last => .error raised last

theorem stateOf_outcomeOf (result : EStateM.Result Raised (Machine σ) Progress) :
    stateOf (outcomeOf result) = stateOf result := by
  cases result with
  | ok progress last => exact stateOf_outcome last
  | error raised last => rfl

variable {m : Machine σ}

/-! ## Steps that go on -/

theorem Steady.step_sameSetup [World σ] (hm : m.Steady permitted) :
    SameSetup m (stateOf (step m)) := by
  rcases hm.step_cases with ⟨progress, last, hstep, -, -, hsame⟩ | ⟨effect, -, hstep⟩
  · rw [hstep]
    exact hsame
  · rw [hstep]
    exact wrapUp_sameSetup m effect

theorem Steady.step [World σ] (hm : m.Steady permitted) : (stateOf (step m)).Steady permitted :=
  hm.of_sameSetup hm.step_sameSetup

/-- A step that goes on is counted within the limit. -/
theorem Steady.step_goesOn [World σ] {next : Machine σ} {progress : Progress}
    (hm : m.Steady permitted) (hstep : Machine.step m = .ok progress next)
    (hgoes : progress.goesOn = true) :
    next.Steady permitted ∧ next.maxSteps = m.maxSteps ∧ next.steps = m.steps + 1 ∧
      (next.steps : Int) ≤ m.maxSteps ∧ next.phase.isFinal = false := by
  have hsame := hm.step_sameSetup
  have hsteady := hm.step
  rw [hstep, stateOf_ok] at hsame hsteady
  refine ⟨hsteady, hsame.maxSteps, ?_⟩
  rcases hm.step_cases with ⟨other, last, hother, hstops, -⟩ | ⟨effect, -, heffect⟩
  · rw [hother] at hstep
    cases hstep
    rw [hstops] at hgoes
    cases hgoes
  · rw [heffect] at hstep
    obtain ⟨category, memory, told, counted, -, -, -, hlimit, -, rfl⟩ := wrapUp_goesOn hstep hgoes
    exact ⟨rfl, hlimit, Category.isFinal_phase category⟩

/-! ## Courses -/

theorem exists_fuel {machines : List (Machine σ)} {fuel : Nat}
    (h : (m :: machines).length ≤ fuel) : ∃ less, fuel = less + 1 := by
  rw [List.length_cons] at h
  exact ⟨fuel - 1, by omega⟩

section Courses

variable [World σ] {goes : Progress → Bool} {machines : List (Machine σ)}
  {result : EStateM.Result Raised (Machine σ) Progress}

/-- A course takes at most one step more than the limit allows for. -/
theorem Course.length_le (hgoes : ∀ progress, goes progress = true → progress.goesOn = true)
    (hm : m.Steady permitted) (h : Course goes machines m result) :
    machines.length ≤ m.maxSteps.toNat - m.steps + 1 := by
  induction h with
  | stop => exact Nat.le_add_left 1 _
  | @cons m next machines progress result hstep hgoes' _ ih =>
    obtain ⟨hsteady, hlimit, hsteps, hle, -⟩ := hm.step_goesOn hstep (hgoes _ hgoes')
    have hlength := ih hsteady
    rw [hlimit, hsteps] at hlength
    rw [List.length_cons]
    omega

/-- Every loop comes to an end. The room that the limit leaves is the measure. -/
theorem exists_course (hgoes : ∀ progress, goes progress = true → progress.goesOn = true)
    (hm : m.Steady permitted) : ∃ machines result, Course goes machines m result := by
  obtain ⟨room, hroom⟩ : ∃ room, m.maxSteps.toNat - m.steps = room := ⟨_, rfl⟩
  induction room using Nat.strongRecOn generalizing m with
  | ind room ih =>
    by_cases hmore : ∃ progress next, step m = .ok progress next ∧ goes progress = true
    · obtain ⟨progress, next, hstep, hgoes'⟩ := hmore
      obtain ⟨hsteady, hlimit, hsteps, hle, -⟩ := hm.step_goesOn hstep (hgoes _ hgoes')
      obtain ⟨machines, result, hcourse⟩ :=
        ih (next.maxSteps.toNat - next.steps) (by rw [hlimit]; omega) hsteady rfl
      exact ⟨m :: machines, result, .cons hstep hgoes' hcourse⟩
    · refine ⟨[m], step m, .stop fun progress next hstep => ?_⟩
      rw [Bool.eq_false_iff]
      exact fun hgoes' => hmore ⟨progress, next, hstep, hgoes'⟩

theorem Course.length_le_allowance
    (hgoes : ∀ progress, goes progress = true → progress.goesOn = true) (hm : m.Steady permitted)
    (h : Course goes machines m result) : machines.length ≤ m.allowance := by
  have hlength := h.length_le hgoes hm
  have hallowance := lt_allowance m
  omega

theorem Course.advanceWithin_eq (h : Course Progress.isOngoing machines m result) {fuel : Nat}
    (hfuel : machines.length ≤ fuel) : advanceWithin fuel m = result := by
  induction h generalizing fuel with
  | @stop m hstop =>
    obtain ⟨fuel, rfl⟩ := exists_fuel hfuel
    rw [advanceWithin, bind_apply]
    cases hstep : step m with
    | error raised next => rfl
    | ok progress next =>
      have hgoes := hstop progress next hstep
      cases progress with
      | ongoing => cases hgoes
      | paused | finished | failed => rfl
  | @cons m next machines progress result hstep hgoes _ ih =>
    obtain ⟨fuel, rfl⟩ := exists_fuel hfuel
    rw [advanceWithin, bind_apply_ok hstep]
    cases progress with
    | ongoing => exact ih (Nat.le_of_succ_le_succ hfuel)
    | paused | finished | failed => cases hgoes

/-- A turn as a course. -/
theorem Course.advance_eq (hm : m.Steady permitted)
    (h : Course Progress.isOngoing machines m result) : advance m = result := by
  unfold advance
  rw [bind_apply_ok (get_apply m)]
  exact h.advanceWithin_eq
    (h.length_le_allowance (fun _ => Progress.goesOn_of_isOngoing) hm)

theorem Course.finishWithin_eq (h : Course Progress.goesOn machines m result) {fuel : Nat}
    (hfuel : machines.length ≤ fuel) :
    finishWithin 0 fuel m = finishedWith result := by
  induction h generalizing fuel with
  | @stop m hstop =>
    obtain ⟨fuel, rfl⟩ := exists_fuel hfuel
    cases hstep : step m with
    | error raised next => exact finishWithin_raises fuel hstep
    | ok progress next => exact finishWithin_stops fuel hstep (hstop progress next hstep)
  | @cons m next machines progress result hstep hgoes _ ih =>
    obtain ⟨fuel, rfl⟩ := exists_fuel hfuel
    rw [finishWithin_goesOn fuel hstep hgoes]
    exact ih (Nat.le_of_succ_le_succ hfuel)

/-- A run as a course. -/
theorem Course.run_eq (hm : m.Steady permitted) (h : Course Progress.goesOn machines m result) :
    run m = outcomeOf result := by
  have hfinish := h.finishWithin_eq (h.length_le_allowance (fun _ hgoes => hgoes) hm)
  unfold run finish
  rw [bind_apply_ok (get_apply m)]
  cases result with
  | ok progress last =>
    rw [bind_apply_ok hfinish]
    rfl
  | error raised last =>
    rw [bind_apply_error hfinish]
    rfl

/-! ## Runs as sequences of turns -/

/-- Whether the step of the machine ends its turn with an action. -/
def pauses (m : Machine σ) : Bool := valueOf (step m) = some .paused

theorem pauses_eq_false
    (hstop : ∀ progress next, step m = .ok progress next → progress.goesOn = false) :
    pauses m = false := by
  unfold pauses
  rw [decide_eq_false_iff_not]
  intro hpaused
  cases hstop _ _ (eq_ok_of_valueOf hpaused)

/-- A course as strides, which end where the last step is taken. -/
theorem Course.strides (h : Course Progress.goesOn machines m result) :
    ∃ n stop, machines.length = n + 1 ∧ Strides n (machines.countP pauses) m stop ∧
      step stop = result ∧
      ∀ progress next, step stop = .ok progress next → progress.goesOn = false := by
  induction h with
  | @stop m hstop =>
    rw [List.countP_cons_of_neg (by simp [pauses_eq_false hstop]), List.countP_nil]
    exact ⟨0, m, rfl, .refl m, rfl, hstop⟩
  | @cons m next machines progress result hstep hgoes _ ih =>
    obtain ⟨n, stop, hlength, hstrides, hresult⟩ := ih
    have hcount : (m :: machines).countP pauses = machines.countP pauses + progress.turns := by
      cases progress with
      | finished | failed => cases hgoes
      | ongoing => exact List.countP_cons_of_neg (by simp [pauses, hstep, valueOf])
      | paused => exact List.countP_cons_of_pos (by simp [pauses, hstep, valueOf])
    rw [List.length_cons, hlength, hcount]
    exact ⟨n + 1, stop, rfl, .cons hstep hgoes hstrides, hresult⟩

/-- An ongoing step is the beginning of a turn. -/
theorem Steady.advance_ongoing {next : Machine σ} (hm : m.Steady permitted)
    (hstep : Machine.step m = .ok .ongoing next) : advance m = advance next := by
  obtain ⟨hsteady, -⟩ := hm.step_goesOn hstep rfl
  obtain ⟨machines, result, hcourse⟩ : ∃ machines result,
      Course Progress.isOngoing machines next result :=
    exists_course (fun _ => Progress.goesOn_of_isOngoing) hsteady
  rw [hcourse.advance_eq hsteady]
  exact Course.advance_eq hm (.cons hstep rfl hcourse)

/-- Any other step is a turn of its own. -/
theorem Steady.advance_step (hm : m.Steady permitted)
    (hstop : ∀ next, Machine.step m ≠ .ok .ongoing next) : advance m = Machine.step m := by
  refine Course.advance_eq hm (.stop fun progress next hstep => ?_)
  cases progress with
  | ongoing => exact absurd hstep (hstop next)
  | paused | finished | failed => rfl

theorem Steady.advance_paused {next : Machine σ} (hm : m.Steady permitted)
    (hstep : Machine.step m = .ok .paused next) : advance m = .ok .paused next := by
  rw [← hstep]
  refine hm.advance_step fun other hother => ?_
  rw [hstep] at hother
  cases hother

/-- A run is a sequence of turns; as many of them end paused as there are steps that pause. -/
theorem Course.turns (hm : m.Steady permitted) (h : Course Progress.goesOn machines m result) :
    Turns (machines.countP pauses) m result := by
  induction h with
  | @stop m hstop =>
    have hadvance : advance m = Machine.step m := by
      refine hm.advance_step fun next hstep => ?_
      cases hstop _ _ hstep
    rw [List.countP_cons_of_neg (by simp [pauses_eq_false hstop]), List.countP_nil, ← hadvance]
    refine .last fun next hpaused => ?_
    rw [hadvance] at hpaused
    cases hstop _ _ hpaused
  | @cons m next machines progress result hstep hgoes _ ih =>
    obtain ⟨hsteady, -⟩ := hm.step_goesOn hstep hgoes
    have hrest := ih hsteady
    cases progress with
    | finished | failed => cases hgoes
    | paused =>
      rw [List.countP_cons_of_pos (by simp [pauses, hstep, valueOf])]
      exact .turn (hm.advance_paused hstep) hrest
    | ongoing =>
      -- The step belongs to the first turn of the machine that it leaves.
      rw [List.countP_cons_of_neg (by simp [pauses, hstep, valueOf])]
      have hadvance := hm.advance_ongoing hstep
      generalize machines.countP pauses = n at hrest ⊢
      cases hrest with
      | last hlast =>
        rw [← hadvance]
        exact .last (by rw [hadvance]; exact hlast)
      | turn hturn hrest => exact .turn (hadvance.trans hturn) hrest

/-- Every run comes by its strides to the last step, and its turns end where these do. -/
theorem Steady.exists_strides (hm : m.Steady permitted) :
    ∃ n k stop, Strides n k m stop ∧ n < m.allowance ∧
      (∀ progress next, Machine.step stop = .ok progress next → progress.goesOn = false) ∧
      Turns k m (Machine.step stop) ∧ run m = outcomeOf (Machine.step stop) := by
  obtain ⟨machines, result, hcourse⟩ : ∃ machines result,
      Course Progress.goesOn machines m result := exists_course (fun _ h => h) hm
  have hlength := hcourse.length_le_allowance (fun _ h => h) hm
  obtain ⟨n, stop, hmachines, hstrides, rfl, hstop⟩ := hcourse.strides
  exact ⟨n, _, stop, hstrides, by omega, hstop, hcourse.turns hm, hcourse.run_eq hm⟩

end Courses

end Machine

end StackRover
