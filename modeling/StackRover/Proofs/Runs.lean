import Mathlib.Logic.Relation
import StackRover.Proofs.Stepping

/-!
# Runs without host operations

A run is a sequence of steps. A walk is a part of a run in which every step executes a term and goes
on; a machine is reached from another by steps of any kind. The driving loop goes on while steps do,
and its allowance does not matter as long as it lasts.

* `step_sameSetup`: what no step changes.
* `Walk.stepTimes_eq`, `Walk.finishWithin_eq`: a walk as a number of calls of `step`, and as the
  beginning of a run.
* `Walk.steps_eq`: in a quiet world every step of a walk counts once.
* `Strides`: a walk with the number of its turns.
* `finishWithin_eq_of_steps_lt`: two allowances that both last give the same run.
* `error_of_run`: a fault that a run ends with is its error.
* `reaches_run`: a run passes through machines that are reached by steps.
-/

namespace StackRover

/-- Whether a step has executed a term and the run goes on. -/
def Progress.goesOn : Progress → Bool
  | .ongoing | .paused => true
  | .finished | .failed => false

/-- The number of turns that end paused with a step. -/
def Progress.turns : Progress → Nat
  | .paused => 1
  | .ongoing | .finished | .failed => 0

@[simp] theorem Category.goesOn_progress (category : Category) :
    category.progress.goesOn = true := by
  unfold Category.progress
  split <;> rfl

@[simp] theorem Category.isFinal_phase (category : Category) :
    category.phase.isFinal = false := by
  unfold Category.phase
  split <;> rfl

namespace Machine

variable {σ : Type}

/-! ## What no step changes -/

/-- The second machine has the operations and the settings of the first. -/
structure SameSetup (m m' : Machine σ) : Prop where
  operations : m'.operations = m.operations
  maxSteps : m'.maxSteps = m.maxSteps
  debug : m'.debug = m.debug

theorem SameSetup.trans {a b c : Machine σ} (h : SameSetup a b) (h' : SameSetup b c) :
    SameSetup a c :=
  ⟨h'.operations.trans h.operations, h'.maxSteps.trans h.maxSteps, h'.debug.trans h.debug⟩

theorem SameSetup.unhosted {m m' : Machine σ} (h : SameSetup m m') (hm : m.Unhosted) :
    m'.Unhosted := by
  intro operation hmem
  rw [h.operations] at hmem
  exact hm operation hmem

theorem settle_sameSetup (raised : Raised) (m : Machine σ) :
    SameSetup m (stateOf (settle raised m)) := by
  unfold settle
  cases raised.ending? <;> exact ⟨rfl, rfl, rfl⟩

/-- A step changes neither the operations nor the settings of the machine. -/
theorem step_sameSetup [World σ] {m : Machine σ} (hm : m.Unhosted) :
    SameSetup m (stateOf (step m)) := by
  cases hfinal : m.phase.isFinal with
  | true =>
    rw [step_final hfinal]
    exact ⟨rfl, rfl, rfl⟩
  | false =>
    cases hpending : m.memory.pending with
    | nil =>
      rw [step_end hfinal hpending]
      exact ⟨rfl, rfl, rfl⟩
    | cons name rest =>
      rw [step_term hm hfinal hpending]
      cases m.effectOf name rest with
      | error raised memory =>
        have hfirst : SameSetup m { m with memory := memory, phase := .running } :=
          ⟨rfl, rfl, rfl⟩
        exact hfirst.trans (settle_sameSetup raised _)
      | ok category memory =>
        have hn := conclude_notified { m with memory := memory, phase := .running }
        simp only
        cases hc : conclude { m with memory := memory, phase := .running } with
        | ok _ after =>
          rw [hc] at hn
          exact ⟨hn.operations, hn.maxSteps, hn.debug⟩
        | error raised after =>
          rw [hc] at hn
          exact SameSetup.trans ⟨hn.operations, hn.maxSteps, hn.debug⟩
            (settle_sameSetup raised after)

theorem SameSetup.of_step [World σ] {m next : Machine σ} {progress : Progress} (hm : m.Unhosted)
    (h : step m = .ok progress next) : SameSetup m next := by
  have hsame := step_sameSetup hm
  rw [h] at hsame
  exact hsame

/-! ## Steps in a quiet world -/

/-- The step of a run that has a term to execute, in a world that takes no notice of
notifications. -/
theorem step_quiet [World σ] (hq : QuietHooks σ) {m : Machine σ} (hm : m.Unhosted)
    (hlive : m.phase.isFinal = false) {name : String} {rest : List String}
    (hpending : m.memory.pending = name :: rest) :
    step m =
      match m.effectOf name rest with
      | .ok category memory =>
        if m.maxSteps < ((m.steps + 1 : Nat) : Int) then
          settle (Raised.ofFault (.programTooLong m.maxSteps))
            { m with memory := memory, steps := m.steps + 1, phase := .running }
        else
          .ok category.progress
            { m with memory := memory, steps := m.steps + 1, phase := category.phase }
      | .error raised memory => settle raised { m with memory := memory, phase := .running } := by
  rw [step_term hm hlive hpending]
  cases m.effectOf name rest with
  | error raised memory => rfl
  | ok category memory =>
    simp only [conclude_quiet hq]
    by_cases hlimit : m.maxSteps < ((m.steps + 1 : Nat) : Int)
    · rw [if_pos hlimit, if_pos hlimit]
    · rw [if_neg hlimit, if_neg hlimit]

theorem settle_steps (raised : Raised) (m : Machine σ) :
    (stateOf (settle raised m)).steps = m.steps := by
  unfold settle
  cases raised.ending? <;> rfl

/-- What is settled and does not escape ends the run with a fault. -/
theorem settle_ok {raised : Raised} {m m' : Machine σ} {progress : Progress}
    (h : settle raised m = .ok progress m') :
    progress = .failed ∧ ∃ fault, raised.ending? = some fault ∧ m'.error = some fault := by
  unfold settle at h
  cases hending : raised.ending? with
  | none => simp [hending] at h
  | some fault =>
    simp only [hending] at h
    cases h
    exact ⟨rfl, fault, rfl, rfl⟩

/-- A step that goes on has executed a term within the limit. -/
theorem step_goesOn [World σ] (hq : QuietHooks σ) {m m' : Machine σ} (hm : m.Unhosted)
    {progress : Progress} (hstep : step m = .ok progress m') (hgoes : progress.goesOn = true) :
    m.phase.isFinal = false ∧ ∃ name rest category memory,
      m.memory.pending = name :: rest ∧ m.effectOf name rest = .ok category memory ∧
      ((m.steps + 1 : Nat) : Int) ≤ m.maxSteps ∧ progress = category.progress ∧
      m' = { m with memory := memory, steps := m.steps + 1, phase := category.phase } := by
  cases hfinal : m.phase.isFinal with
  | true =>
    rw [step_final hfinal] at hstep
    cases hstep
    split at hgoes <;> cases hgoes
  | false =>
    refine ⟨rfl, ?_⟩
    cases hpending : m.memory.pending with
    | nil =>
      rw [step_end hfinal hpending] at hstep
      cases hstep
      cases hgoes
    | cons name rest =>
      rw [step_quiet hq hm hfinal hpending] at hstep
      cases heffect : m.effectOf name rest with
      | error raised memory =>
        rw [heffect] at hstep
        rw [(settle_ok hstep).1] at hgoes
        cases hgoes
      | ok category memory =>
        simp only [heffect] at hstep
        split at hstep
        · rw [(settle_ok hstep).1] at hgoes
          cases hgoes
        · rename_i hlimit
          cases hstep
          exact ⟨name, rest, category, memory, rfl, heffect, by omega, rfl, rfl⟩

/-- A step that goes on leaves a live run. -/
theorem step_goesOn_live [World σ] {m next : Machine σ} (hm : m.Unhosted) {progress : Progress}
    (hstep : step m = .ok progress next) (hgoes : progress.goesOn = true) :
    next.phase.isFinal = false := by
  cases hfinal : m.phase.isFinal with
  | true =>
    rw [step_final hfinal] at hstep
    cases hstep
    split at hgoes <;> cases hgoes
  | false =>
    cases hpending : m.memory.pending with
    | nil =>
      rw [step_end hfinal hpending] at hstep
      cases hstep
      cases hgoes
    | cons name rest =>
      rw [step_term hm hfinal hpending] at hstep
      split at hstep
      · split at hstep
        · cases hstep
          exact Category.isFinal_phase _
        · rw [(settle_ok hstep).1] at hgoes
          cases hgoes
      · rw [(settle_ok hstep).1] at hgoes
        cases hgoes

theorem steps_le_step [World σ] (hq : QuietHooks σ) {m : Machine σ} (hm : m.Unhosted) :
    m.steps ≤ (stateOf (step m)).steps := by
  cases hfinal : m.phase.isFinal with
  | true =>
    rw [step_final hfinal]
    exact Nat.le_refl _
  | false =>
    cases hpending : m.memory.pending with
    | nil =>
      rw [step_end hfinal hpending]
      exact Nat.le_refl _
    | cons name rest =>
      rw [step_quiet hq hm hfinal hpending]
      cases m.effectOf name rest with
      | error raised memory =>
        have hsteps := settle_steps raised { m with memory := memory, phase := .running }
        exact Nat.le_of_eq hsteps.symm
      | ok category memory =>
        simp only
        split
        · rw [settle_steps]
          exact Nat.le_succ _
        · exact Nat.le_succ _

/-! ## Walks -/

/-- Take so many steps, whatever they report. -/
def stepTimes [World σ] : Nat → Run σ Unit
  | 0 => pure ()
  | n + 1 => do
    let _ ← step
    stepTimes n

/-- So many steps lead from the one machine to the other, and each of them executes a term and goes
on. -/
inductive Walk [World σ] : Nat → Machine σ → Machine σ → Prop
  | refl (m : Machine σ) : Walk 0 m m
  | cons {n : Nat} {m next last : Machine σ} {progress : Progress}
      (hstep : step m = .ok progress next) (hgoes : progress.goesOn = true)
      (hrest : Walk n next last) : Walk (n + 1) m last

/-- A walk of so many steps, with so many turns that end paused. -/
inductive Strides [World σ] : Nat → Nat → Machine σ → Machine σ → Prop
  | refl (m : Machine σ) : Strides 0 0 m m
  | cons {n k : Nat} {m next last : Machine σ} {progress : Progress}
      (hstep : step m = .ok progress next) (hgoes : progress.goesOn = true)
      (hrest : Strides n k next last) : Strides (n + 1) (k + progress.turns) m last

/-- A term that raises nothing is a walk, if the limit allows for it. -/
theorem walk_of_effect [World σ] (hq : QuietHooks σ) {m : Machine σ} (hm : m.Unhosted)
    (hlive : m.phase.isFinal = false) {name : String} {rest : List String}
    (hpending : m.memory.pending = name :: rest) {category : Category} {memory : Memory σ}
    (heffect : m.effectOf name rest = .ok category memory)
    (hroom : ((m.steps + 1 : Nat) : Int) ≤ m.maxSteps) :
    Walk 1 m { m with memory := memory, steps := m.steps + 1, phase := category.phase } := by
  have hstep := step_quiet hq hm hlive hpending
  have hlimit : ¬ m.maxSteps < ((m.steps + 1 : Nat) : Int) := by omega
  simp only [heffect] at hstep
  rw [if_neg hlimit] at hstep
  exact .cons hstep (Category.goesOn_progress category) (.refl _)

namespace Walk

variable [World σ] {m m' m'' : Machine σ} {n k : Nat}

theorem trans (h : Walk n m m') (h' : Walk k m' m'') : Walk (n + k) m m'' := by
  induction h with
  | refl m => rwa [Nat.zero_add]
  | @cons n m next last progress hstep hgoes _ ih =>
    rw [Nat.add_right_comm]
    exact .cons hstep hgoes (ih h')

/-- A walk as calls of `step`. -/
theorem stepTimes_eq (h : Walk n m m') : stepTimes n m = .ok () m' := by
  induction h with
  | refl m => rfl
  | cons hstep _ _ ih =>
    rw [stepTimes, bind_apply, hstep]
    exact ih

theorem sameSetup (hm : m.Unhosted) (h : Walk n m m') : SameSetup m m' := by
  induction h with
  | refl m => exact ⟨rfl, rfl, rfl⟩
  | cons hstep _ _ ih =>
    have hsame := SameSetup.of_step hm hstep
    exact hsame.trans (ih (hsame.unhosted hm))

/-- In a quiet world every step of a walk counts once. -/
theorem steps_eq (hq : QuietHooks σ) (hm : m.Unhosted) (h : Walk n m m') :
    m'.steps = m.steps + n := by
  induction h with
  | refl m => rfl
  | cons hstep hgoes _ ih =>
    obtain ⟨-, name, rest, category, memory, -, -, -, -, hnext⟩ := step_goesOn hq hm hstep hgoes
    rw [ih ((SameSetup.of_step hm hstep).unhosted hm), hnext]
    simp only
    omega

/-- A walk ends in a run that is live, with the error that it had. -/
theorem live (hq : QuietHooks σ) (hm : m.Unhosted) (hlive : m.phase.isFinal = false)
    (h : Walk n m m') : m'.phase.isFinal = false ∧ m'.error = m.error := by
  induction h with
  | refl m => exact ⟨hlive, rfl⟩
  | cons hstep hgoes _ ih =>
    obtain ⟨-, name, rest, category, memory, -, -, -, -, hnext⟩ := step_goesOn hq hm hstep hgoes
    have hunhosted := (SameSetup.of_step hm hstep).unhosted hm
    subst hnext
    exact ih hunhosted (Category.isFinal_phase category)

theorem exists_strides (h : Walk n m m') : ∃ k, Strides n k m m' := by
  induction h with
  | refl m => exact ⟨0, .refl m⟩
  | cons hstep hgoes _ ih =>
    obtain ⟨k, hrest⟩ := ih
    exact ⟨_, .cons hstep hgoes hrest⟩

end Walk

namespace Strides

variable [World σ] {m m' m'' : Machine σ} {n k n' k' : Nat}

theorem walk (h : Strides n k m m') : Walk n m m' := by
  induction h with
  | refl m => exact .refl m
  | cons hstep hgoes _ ih => exact .cons hstep hgoes ih

theorem trans (h : Strides n k m m') (h' : Strides n' k' m' m'') :
    Strides (n + n') (k + k') m m'' := by
  induction h with
  | refl m =>
    rw [Nat.zero_add, Nat.zero_add]
    exact h'
  | cons hstep hgoes _ ih =>
    rw [Nat.add_right_comm, Nat.add_right_comm _ (Progress.turns _)]
    exact .cons hstep hgoes (ih h')

end Strides

/-! ## The driving loop -/

theorem finishWithin_goesOn [World σ] {m m' : Machine σ} {progress : Progress} (fuel : Nat)
    (hstep : step m = .ok progress m') (hgoes : progress.goesOn = true) :
    finishWithin 0 (fuel + 1) m = finishWithin 0 fuel m' := by
  rw [finishWithin, bind_apply, hstep]
  cases progress with
  | ongoing | paused => rfl
  | finished | failed => cases hgoes

theorem finishWithin_stops [World σ] {m m' : Machine σ} {progress : Progress} (fuel : Nat)
    (hstep : step m = .ok progress m') (hgoes : progress.goesOn = false) :
    finishWithin 0 (fuel + 1) m = .ok () m' := by
  rw [finishWithin, bind_apply, hstep]
  cases progress with
  | ongoing | paused => cases hgoes
  | finished | failed => rfl

theorem finishWithin_raises [World σ] {m m' : Machine σ} {raised : Raised} (fuel : Nat)
    (hstep : step m = .error raised m') :
    finishWithin 0 (fuel + 1) m = .error raised m' := by
  rw [finishWithin, bind_apply, hstep]

/-- A walk as the beginning of a run. -/
theorem Walk.finishWithin_eq [World σ] {m m' : Machine σ} {n : Nat} (h : Walk n m m')
    (fuel : Nat) : finishWithin 0 (n + fuel) m = finishWithin 0 fuel m' := by
  induction h with
  | refl m => rw [Nat.zero_add]
  | cons hstep hgoes _ ih =>
    rw [Nat.add_right_comm, finishWithin_goesOn _ hstep hgoes]
    exact ih

theorem steps_le_finishWithin [World σ] (hq : QuietHooks σ) (fuel : Nat) {m : Machine σ}
    (hm : m.Unhosted) : m.steps ≤ (stateOf (finishWithin 0 fuel m)).steps := by
  induction fuel generalizing m with
  | zero => exact Nat.le_refl _
  | succ fuel ih =>
    have hle := steps_le_step hq hm
    cases hstep : step m with
    | error raised next =>
      rw [hstep] at hle
      rwa [finishWithin_raises fuel hstep]
    | ok progress next =>
      rw [hstep] at hle
      cases hgoes : progress.goesOn with
      | false => rwa [finishWithin_stops fuel hstep hgoes]
      | true =>
        rw [finishWithin_goesOn fuel hstep hgoes]
        exact Nat.le_trans hle (ih ((SameSetup.of_step hm hstep).unhosted hm))

/-- Two allowances that both last give the same run. -/
theorem finishWithin_eq_of_steps_lt [World σ] (hq : QuietHooks σ) {fuel fuel' : Nat}
    {m : Machine σ} (hm : m.Unhosted)
    (hfuel : (stateOf (finishWithin 0 fuel m)).steps < m.steps + fuel)
    (hfuel' : (stateOf (finishWithin 0 fuel m)).steps < m.steps + fuel') :
    finishWithin 0 fuel' m = finishWithin 0 fuel m := by
  induction fuel generalizing m fuel' with
  | zero =>
    have := steps_le_finishWithin hq 0 hm
    omega
  | succ fuel ih =>
    cases fuel' with
    | zero =>
      have := steps_le_finishWithin hq (fuel + 1) hm
      omega
    | succ fuel' =>
      cases hstep : step m with
      | error raised next =>
        rw [finishWithin_raises fuel hstep, finishWithin_raises fuel' hstep]
      | ok progress next =>
        cases hgoes : progress.goesOn with
        | false => rw [finishWithin_stops fuel hstep hgoes, finishWithin_stops fuel' hstep hgoes]
        | true =>
          have hsteps := Walk.steps_eq hq hm (.cons hstep hgoes (.refl next))
          rw [finishWithin_goesOn fuel hstep hgoes] at hfuel hfuel' ⊢
          rw [finishWithin_goesOn fuel' hstep hgoes]
          exact ih ((SameSetup.of_step hm hstep).unhosted hm) (by omega) (by omega)

/-- A run that completes is a walk to a machine without pending terms. -/
theorem exists_walk_of_completes [World σ] (hq : QuietHooks σ) {fuel : Nat} {m last : Machine σ}
    (hm : m.Unhosted) (hlive : m.phase.isFinal = false)
    (hfinish : finishWithin 0 fuel m = .ok () last) (hlast : last.error = none) :
    ∃ n stop, Walk n m stop ∧ stop.phase.isFinal = false ∧ stop.memory.pending = [] ∧
      step stop = .ok .finished last := by
  induction fuel generalizing m with
  | zero => cases hfinish
  | succ fuel ih =>
    cases hstep : step m with
    | error raised next =>
      rw [finishWithin_raises fuel hstep] at hfinish
      cases hfinish
    | ok progress next =>
      cases hgoes : progress.goesOn with
      | true =>
        obtain ⟨-, name, rest, category, memory, -, -, -, -, hnext⟩ := step_goesOn hq hm hstep hgoes
        have hlive' : next.phase.isFinal = false := by
          rw [hnext]
          exact Category.isFinal_phase category
        rw [finishWithin_goesOn fuel hstep hgoes] at hfinish
        obtain ⟨n, stop, hwalk, hstop⟩ :=
          ih ((SameSetup.of_step hm hstep).unhosted hm) hlive' hfinish
        exact ⟨n + 1, stop, .cons hstep hgoes hwalk, hstop⟩
      | false =>
        rw [finishWithin_stops fuel hstep hgoes] at hfinish
        cases hfinish
        cases hpending : m.memory.pending with
        | nil =>
          refine ⟨0, m, .refl m, hlive, hpending, ?_⟩
          rw [step_end hlive hpending] at hstep ⊢
          cases hstep
          rfl
        | cons name rest =>
          -- A term that does not go on has failed.
          rw [step_quiet hq hm hlive hpending] at hstep
          cases heffect : m.effectOf name rest with
          | error raised memory =>
            rw [heffect] at hstep
            obtain ⟨-, fault, -, herror⟩ := settle_ok hstep
            rw [herror] at hlast
            cases hlast
          | ok category memory =>
            simp only [heffect] at hstep
            split at hstep
            · obtain ⟨-, fault, -, herror⟩ := settle_ok hstep
              rw [herror] at hlast
              cases hlast
            · cases hstep
              rw [Category.goesOn_progress] at hgoes
              cases hgoes

/-- Going on to the end of the run is the driving loop with the full allowance. -/
theorem run_eq [World σ] (m : Machine σ) :
    run m =
      match finishWithin 0 m.allowance m with
      | .ok _ last =>
        match last.error with
        | some fault => .error (.fault fault) last
        | none => .ok last.memory.stack last
      | .error raised last => .error raised last := by
  -- Rewriting keeps the allowance folded; unfolding would make it a numeral of a million.
  unfold run finish
  rw [bind_apply_ok (get_apply m)]
  cases hfinish : finishWithin 0 m.allowance m with
  | error raised last => rw [bind_apply_error hfinish]
  | ok _ last =>
    rw [bind_apply_ok hfinish]
    unfold outcome
    rw [bind_apply_ok (get_apply last)]
    simp only
    cases last.error <;> rfl

/-! ## What escapes from a run -/

/-- A step of a machine without host operations raises only what ends no run. -/
theorem step_raises [World σ] {m next : Machine σ} {raised : Raised} (hm : m.Unhosted)
    (h : step m = .error raised next) : raised.ending? = none := by
  have hsettle : ∀ {other : Raised} {m' : Machine σ}, settle other m' = .error raised next →
      raised.ending? = none := by
    intro other m' hsettle
    unfold settle at hsettle
    split at hsettle
    · cases hsettle
    · rename_i hnone
      cases hsettle
      exact hnone
  cases hfinal : m.phase.isFinal with
  | true =>
    rw [step_final hfinal] at h
    cases h
  | false =>
    cases hpending : m.memory.pending with
    | nil =>
      rw [step_end hfinal hpending] at h
      cases h
    | cons name rest =>
      rw [step_term hm hfinal hpending] at h
      split at h
      · split at h
        · cases h
        · exact hsettle h
      · exact hsettle h

theorem finishWithin_raises_none [World σ] {fuel : Nat} {m last : Machine σ} {raised : Raised}
    (hm : m.Unhosted) (h : finishWithin 0 fuel m = .error raised last) :
    raised.ending? = none := by
  induction fuel generalizing m with
  | zero =>
    cases h
    rfl
  | succ fuel ih =>
    cases hstep : step m with
    | error raised' next =>
      rw [finishWithin_raises fuel hstep] at h
      cases h
      exact step_raises hm hstep
    | ok progress next =>
      cases hgoes : progress.goesOn with
      | false =>
        rw [finishWithin_stops fuel hstep hgoes] at h
        cases h
      | true =>
        rw [finishWithin_goesOn fuel hstep hgoes] at h
        exact ih ((SameSetup.of_step hm hstep).unhosted hm) h

/-- A run that ends with a fault keeps it as its error. -/
theorem error_of_run [World σ] {m last : Machine σ} {fault : Fault} (hm : m.Unhosted)
    (h : run m = .error (.fault fault) last) : last.error = some fault := by
  rw [run_eq] at h
  cases hfinish : finishWithin 0 m.allowance m with
  | error raised last' =>
    have hnone := finishWithin_raises_none hm hfinish
    rw [hfinish] at h
    cases h
    cases hnone
  | ok _ last' =>
    rw [hfinish] at h
    simp only at h
    cases herror : last'.error with
    | none =>
      rw [herror] at h
      cases h
    | some fault' =>
      rw [herror] at h
      cases h
      exact herror

/-! ## Machines that are reached -/

/-- The second machine is reached from the first by steps; a step may also raise something. -/
def Reaches [World σ] : Machine σ → Machine σ → Prop :=
  Relation.ReflTransGen fun m next => stateOf (step m) = next

/-- What every step preserves holds of every machine that is reached. -/
theorem Reaches.invariant [World σ] {P : Machine σ → Prop}
    (hstep : ∀ m, P m → P (stateOf (step m))) {m m' : Machine σ} (h : Reaches m m') (hm : P m) :
    P m' := by
  induction h with
  | refl => exact hm
  | tail _ hnext ih =>
    rw [← hnext]
    exact hstep _ ih

theorem Reaches.sameSetup [World σ] {m m' : Machine σ} (hm : m.Unhosted) (h : Reaches m m') :
    SameSetup m m' := by
  refine h.invariant (P := SameSetup m) (fun machine hsame => ?_) ⟨rfl, rfl, rfl⟩
  exact hsame.trans (step_sameSetup (hsame.unhosted hm))

theorem reaches_finishWithin [World σ] (fuel : Nat) (m : Machine σ) :
    Reaches m (stateOf (finishWithin 0 fuel m)) := by
  induction fuel generalizing m with
  | zero => exact .refl
  | succ fuel ih =>
    cases hstep : step m with
    | error raised next =>
      rw [finishWithin_raises fuel hstep]
      exact .single (by rw [hstep]; rfl)
    | ok progress next =>
      cases hgoes : progress.goesOn with
      | false =>
        rw [finishWithin_stops fuel hstep hgoes]
        exact .single (by rw [hstep]; rfl)
      | true =>
        rw [finishWithin_goesOn fuel hstep hgoes]
        exact .head (by rw [hstep]; rfl) (ih next)

/-- A run ends in a machine that is reached by steps. -/
theorem reaches_run [World σ] (m : Machine σ) : Reaches m (stateOf (run m)) := by
  have hreaches := reaches_finishWithin m.allowance m
  rw [run_eq]
  cases hfinish : finishWithin 0 m.allowance m with
  | error raised last =>
    rw [hfinish] at hreaches
    exact hreaches
  | ok _ last =>
    rw [hfinish] at hreaches
    simp only
    cases last.error <;> exact hreaches

end Machine

end StackRover
