import StackRover.Machine.Drive
import StackRover.Proofs.Scripts

/-!
# Hosts

A host works with a machine by calls: it loads programs, drives runs step by step, turn by turn or
to their end, and changes the definitions, the operations and the pending terms between the steps. A
call may raise something; what it had done until then stays done.

* `HostCall.perform`: what a call does.
* `Machine.serve`: the machine after a sequence of calls.
* `HostCall.keeps`: what the steps, the loading and the adding of operations keep, is kept by every
  call.
-/

namespace StackRover

variable {σ : Type}

/-- What a host can ask of a machine. -/
inductive HostCall where
  /-- Start a new run over the terms, with the given stack. -/
  | load (terms : List String) (stack : List Int)
  /-- Take one step, in which scripts may step the machine within each other to the given depth. -/
  | step (depth : Nat)
  /-- Go on to the end of the turn. -/
  | advance
  /-- Go on to the end of the run. -/
  | run
  /-- Run a program text on a stack. -/
  | execute (text : String) (stack : List Int)
  /-- Bind a name to terms. -/
  | define (name : String) (body : List String)
  /-- Drop all definitions. -/
  | forget
  /-- Add an operation. -/
  | add (extension : Extension)
  /-- Insert terms before the pending ones. -/
  | splice (terms : List String)
  /-- Take the next pending term, on behalf of the named operation. -/
  | take (name : String)

namespace HostCall

/-- Carry out the call. -/
def perform [World σ] : HostCall → Run σ Unit
  | load terms stack => modify fun machine => machine.load terms stack
  | step depth => do let _ ← Machine.stepAt (depth + 1)
  | advance => do let _ ← Machine.advance
  | run => do let _ ← Machine.run
  | execute text stack => do let _ ← Machine.execute text stack
  | define name body => Run.within (Task.define name body)
  | forget => Run.within Task.forget
  | add extension => modify fun machine => machine.addOperation extension.operation
  | splice terms => Run.within (Task.splice terms)
  | take name => do let _ ← Run.within (Task.nextTerm name)

/-- Whether the call starts a new run. -/
def loads : HostCall → Bool
  | load .. | execute .. => true
  | _ => false

end HostCall

namespace Machine

/-- The machine after the calls, made one after the other, whatever they raise. -/
def serve [World σ] (m : Machine σ) (calls : List HostCall) : Machine σ :=
  calls.foldl (fun machine call => stateOf (call.perform machine)) m

/-! ## Driving loops as steps -/

theorem step_eq_stepAt [World σ] :
    (step : Run σ Progress) = stepAt (nestingLimit - 1 + 1) := rfl

theorem reaches_advanceWithin [World σ] (fuel : Nat) (m : Machine σ) :
    Reaches m (stateOf (advanceWithin fuel m)) := by
  induction fuel generalizing m with
  | zero => exact .refl
  | succ fuel ih =>
    rw [advanceWithin, bind_apply]
    cases hstep : step m with
    | error raised next => exact .single (by rw [hstep, stateOf_error])
    | ok progress next =>
      have hnext : Reaches m next := .single (by rw [hstep, stateOf_ok])
      cases progress with
      | ongoing => exact hnext.trans (ih next)
      | paused | finished | failed => exact hnext

theorem reaches_advance [World σ] (m : Machine σ) : Reaches m (stateOf (advance m)) := by
  unfold advance
  rw [bind_apply_ok (get_apply m)]
  exact reaches_advanceWithin m.allowance m

theorem execute_eq [World σ] (text : String) (stack : List Int) (m : Machine σ) :
    execute text stack m = run (m.load (Program.tokenize text) stack) := by
  unfold execute
  rw [bind_apply_ok (modify_apply _ m)]

end Machine

open Machine

/-! ## What calls keep -/

/-- What belongs to the course of a run and is kept by steps, by loading and by adding an operation,
as far as the call does so, is kept by the call. -/
theorem HostCall.keeps [World σ] {P : Machine σ → Prop} {call : HostCall}
    (hcourse : ∀ {m m'}, SameCourse m m' → P m → P m')
    (hstep : ∀ {m} depth, P m → P (stateOf (stepAt (depth + 1) m)))
    (hload : call.loads = true → ∀ {m} terms stack, P m → P (m.load terms stack))
    (hadd : ∀ extension, call = .add extension →
      ∀ {m}, P m → P (m.addOperation extension.operation))
    {m : Machine σ} (hm : P m) : P (stateOf (call.perform m)) := by
  have hdrop : ∀ {α : Type} (x : Run σ α) (t : Machine σ),
      stateOf ((do let _ ← x : Run σ Unit) t) = stateOf (x t) := by
    intro α x t
    exact Script.stateOf_bind_pure x (fun _ => ()) t
  -- The driving loops only take steps, so they keep what steps keep.
  have hreaches : ∀ {m m' : Machine σ}, Reaches m m' → P m → P m' := by
    intro m m' h hm
    refine h.invariant (fun machine hmachine => ?_) hm
    rw [step_eq_stepAt]
    exact hstep _ hmachine
  cases call with
  | load terms stack => exact hload rfl terms stack hm
  | step depth =>
    rw [perform, hdrop]
    exact hstep depth hm
  | advance =>
    rw [perform, hdrop]
    exact hreaches (reaches_advance m) hm
  | run =>
    rw [perform, hdrop]
    exact hreaches (reaches_run m) hm
  | execute text stack =>
    rw [perform, hdrop, execute_eq]
    exact hreaches (reaches_run _) (hload rfl _ _ hm)
  | define name body => exact hcourse (within_sameCourse (Task.define name body) m) hm
  | forget => exact hcourse (within_sameCourse Task.forget m) hm
  | splice terms => exact hcourse (within_sameCourse (Task.splice terms) m) hm
  | take =>
    rw [perform, hdrop]
    exact hcourse (within_sameCourse _ m) hm
  | add extension => exact hadd extension rfl hm

/-- The machine with other pending terms, definitions and journal. -/
def Machine.edited (m : Machine σ) (pending : List String) (definitions : Lexicon Definition)
    (journal : List Event) : Machine σ :=
  { m with
    memory := { m.memory with pending := pending, definitions := definitions, journal := journal } }

/-- A call that starts no new run takes steps, edits the pending terms and the definitions, or adds
an operation. -/
theorem HostCall.perform_cases [World σ] {call : HostCall} (hloads : call.loads = false)
    (m : Machine σ) :
    (∃ depth, stateOf (call.perform m) = stateOf (stepAt (depth + 1) m)) ∨
    Reaches m (stateOf (call.perform m)) ∨
    (∃ pending definitions journal,
      stateOf (call.perform m) = m.edited pending definitions journal) ∨
    ∃ extension, call = .add extension ∧
      stateOf (call.perform m) = m.addOperation extension.operation := by
  have hdrop : ∀ {α : Type} (x : Run σ α),
      stateOf ((do let _ ← x : Run σ Unit) m) = stateOf (x m) :=
    fun x => Script.stateOf_bind_pure x (fun _ => ()) m
  have hwithin : ∀ {α : Type} (task : Task σ α),
      stateOf (Run.within task m) = { m with memory := stateOf (task m.memory) } := by
    intro α task
    unfold Run.within
    cases task m.memory <;> rfl
  cases call with
  | load | execute => cases hloads
  | step depth => exact Or.inl ⟨depth, hdrop _⟩
  | advance =>
    rw [perform, hdrop]
    exact Or.inr (Or.inl (reaches_advance m))
  | run =>
    rw [perform, hdrop]
    exact Or.inr (Or.inl (reaches_run m))
  | define name body =>
    refine Or.inr (Or.inr (Or.inl ?_))
    rw [perform, hwithin]
    simp only [Task.define, bind_apply, get_apply]
    split <;> exact ⟨_, _, _, rfl⟩
  | forget => exact Or.inr (Or.inr (Or.inl ⟨_, _, _, rfl⟩))
  | splice terms => exact Or.inr (Or.inr (Or.inl ⟨_, _, _, rfl⟩))
  | take name =>
    refine Or.inr (Or.inr (Or.inl ?_))
    rw [perform, hdrop, hwithin]
    unfold Task.nextTerm
    split <;> exact ⟨_, _, _, rfl⟩
  | add extension => exact Or.inr (Or.inr (Or.inr ⟨extension, rfl, rfl⟩))

theorem Machine.serve_keeps [World σ] {P : Machine σ → Prop} {calls : List HostCall}
    (h : ∀ call ∈ calls, ∀ {m}, P m → P (stateOf (call.perform m))) {m : Machine σ} (hm : P m) :
    P (m.serve calls) := by
  induction calls generalizing m with
  | nil => exact hm
  | cons call calls ih =>
    refine ih (fun call' hmem => ?_) (h call List.mem_cons_self hm)
    exact h call' (List.mem_cons_of_mem _ hmem)

end StackRover
