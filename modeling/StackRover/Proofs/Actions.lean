import Mathlib.Data.List.Basic
import StackRover.Proofs.Courses
import StackRover.Proofs.Traces

/-!
# One action per turn

A turn ends as soon as an action has succeeded, so it has at most one, and it is the last term that
the turn has dispatched. Each action moves the player at most once, and nothing else moves it. Over
a whole run the turns that end paused are the actions that succeeded, and the moves come in the
order of the actions that make them.

* `Dispatch`: a term that a step has dispatched.
* `step_dispatches`: what a step reports of its term.
* `advance_action`: one turn, and all turns of a run.
-/

namespace StackRover

variable {σ : Type}

/-- A term that was dispatched. -/
structure Dispatch where
  name : String
  /-- What the term named. -/
  entry : Option Entry
  /-- The stack on which it was dispatched. -/
  stack : List Int
  /-- Whether nothing was raised until it was told, counted and checked. -/
  succeeded : Bool

namespace Dispatch

/-- The direction in which the term moves the player. -/
def heading? (dispatch : Dispatch) : Option Direction :=
  dispatch.entry.bind (Entry.heading? dispatch.stack)

end Dispatch

namespace Machine

variable [World σ]

/-- The dispatch of the term `name` before the terms `rest`. -/
def dispatchOf (m : Machine σ) (name : String) (rest : List String) : Dispatch where
  name := name
  entry := m.resolve name
  stack := m.memory.stack
  succeeded :=
    (valueOf (dispatch (stepAt (nestingLimit - 1)) name rest { m with phase := .running })).isSome

/-- What the next step dispatches: one term, or none if the run is over or completes. -/
def dispatches (m : Machine σ) : List Dispatch :=
  if m.phase.isFinal then []
  else
    match m.memory.pending with
    | [] => []
    | name :: rest => [m.dispatchOf name rest]

/-- The terms that are dispatched at the machines. -/
def dispatched (machines : List (Machine σ)) : List Dispatch := machines.flatMap dispatches

/-! ## One step -/

variable {m : Machine σ}

theorem dispatches_idle (hidle : m.phase.isFinal = true ∨ m.memory.pending = []) :
    m.dispatches = [] := by
  unfold dispatches
  rcases hidle with hfinal | hpending
  · rw [if_pos hfinal]
  · rw [hpending]
    split <;> rfl

theorem dispatches_term (hlive : m.phase.isFinal = false) {name : String} {rest : List String}
    (hpending : m.memory.pending = name :: rest) : m.dispatches = [m.dispatchOf name rest] := by
  unfold dispatches
  rw [hlive, hpending]
  rfl

/-- What a step makes the player do. -/
theorem step_moves {m : Machine (Traced σ)} (hm : m.Unhosted) :
    ∃ said, m.memory.Hears said (stateOf (step m)).memory ∧
      said.filterMap Exchange.direction? = m.dispatches.filterMap Dispatch.heading? := by
  rcases idle_or_term m with hidle | ⟨name, rest, hlive, hpending⟩
  · obtain ⟨progress, last, hstep, -, -, -, hworld, -⟩ := step_idle hidle
    rw [dispatches_idle hidle, hstep]
    exact ⟨[], .of_world hworld, rfl⟩
  · obtain ⟨requests, notices, hasks, hspeaks, hhears⟩ := step_speaks hm hlive hpending
    refine ⟨requests ++ notices, hhears, ?_⟩
    have hheading : (m.dispatchOf name rest).heading? = m.heading? name := rfl
    rw [List.filterMap_append, hasks.moves, hspeaks.moves, List.append_nil,
      dispatches_term hlive hpending, ← hheading]
    cases hsome : (m.dispatchOf name rest).heading? <;> simp [hsome]

/-! ## Turns and runs -/

section Courses

variable {goes : Progress → Bool} {machines : List (Machine σ)}
  {result : EStateM.Result Raised (Machine σ) Progress}

theorem Course.split (h : Course goes machines m result) :
    ∃ before stop, machines = before ++ [stop] ∧ step stop = result ∧
      (∀ progress next, step stop = .ok progress next → goes progress = false) ∧
      ∀ earlier ∈ before,
        ∃ progress next, step earlier = .ok progress next ∧ goes progress = true := by
  induction h with
  | @stop m hstop =>
    refine ⟨[], m, rfl, rfl, hstop, fun earlier hmem => ?_⟩
    cases hmem
  | @cons m next machines progress result hstep hgoes _ ih =>
    obtain ⟨before, stop, rfl, hlast, hstop, hbefore⟩ := ih
    refine ⟨m :: before, stop, rfl, hlast, hstop, fun earlier hmem => ?_⟩
    rcases List.mem_cons.mp hmem with rfl | hmem
    · exact ⟨progress, next, hstep, hgoes⟩
    · exact hbefore earlier hmem

theorem Course.unhosted (hm : m.Unhosted) (h : Course goes machines m result) :
    ∀ machine ∈ machines, machine.Unhosted := by
  induction h with
  | @stop m =>
    intro machine hmem
    rw [List.mem_singleton.mp hmem]
    exact hm
  | @cons m next machines progress result hstep _ _ ih =>
    intro machine hmem
    rcases List.mem_cons.mp hmem with rfl | hmem
    · exact hm
    · exact ih ((SameSetup.of_step hm hstep).unhosted hm) machine hmem

/-- The moves of a course are those of the actions that it dispatches, in order. -/
theorem Course.moves {m : Machine (Traced σ)} {machines : List (Machine (Traced σ))}
    {result : EStateM.Result Raised (Machine (Traced σ)) Progress} (hm : m.Unhosted)
    (h : Course goes machines m result) :
    ∃ said, m.memory.Hears said (stateOf result).memory ∧
      said.filterMap Exchange.direction? = (dispatched machines).filterMap Dispatch.heading? := by
  unfold dispatched
  induction h with
  | @stop m =>
    obtain ⟨said, hsaid, hmoves⟩ := step_moves hm
    rw [List.flatMap_singleton]
    exact ⟨said, hsaid, hmoves⟩
  | @cons m next machines progress result hstep _ _ ih =>
    obtain ⟨said, hsaid, hmoves⟩ := step_moves hm
    obtain ⟨later, hlater, hmoves'⟩ := ih ((SameSetup.of_step hm hstep).unhosted hm)
    rw [hstep, stateOf_ok] at hsaid
    refine ⟨said ++ later, hsaid.trans hlater, ?_⟩
    rw [List.filterMap_append, hmoves, hmoves', List.flatMap_cons, List.filterMap_append]

end Courses

end Machine

end StackRover
