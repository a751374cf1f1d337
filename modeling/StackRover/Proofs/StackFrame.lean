import StackRover.Proofs.Lockstep
import StackRover.World.Recorder

/-!
# The values below a run

A run that does not fail for want of values never looks below the stack that it was given: with more
values underneath, it takes the same steps, asks the same of the world and ends in the same way,
with those values still underneath.

* `run_frame`: the two runs end alike.
* `Watched`: a world in which the requests of a run can be read off.
-/

namespace StackRover

/-! ## Watched worlds -/

/-- A world together with the requests that it has answered, notifications apart. -/
structure Watched (σ : Type) where
  world : σ
  /-- The requests, the latest first. -/
  calls : List Call := []

namespace Watched

variable {σ α : Type}

/-- Pass a request on to the world and write it down. -/
def pass (call : Call) (request : σ → Reply σ α) (watched : Watched σ) : Reply (Watched σ) α :=
  let reply := request watched.world
  ⟨reply.result, ⟨reply.world, call :: watched.calls⟩, reply.events⟩

/-- Pass a notification on to the world. -/
def notify (notice : σ → Reply σ Unit) (watched : Watched σ) : Reply (Watched σ) Unit :=
  let reply := notice watched.world
  ⟨reply.result, { watched with world := reply.world }, reply.events⟩

instance [World σ] : World (Watched σ) where
  move direction := pass (.move direction) (World.move direction)
  lookAt cell := pass (.lookAt cell) (World.lookAt cell)
  position := pass .position World.position
  stackChanged stack := notify (World.stackChanged stack)
  stepped steps := notify (World.stepped steps)

end Watched

theorem quietHooks_watched {σ : Type} [World σ] (hq : QuietHooks σ) : QuietHooks (Watched σ) := by
  refine ⟨fun stack watched => ?_, fun steps watched => ?_⟩
  · show Watched.notify (World.stackChanged stack) watched = Reply.pure () watched
    simp only [Watched.notify, hq.stackChanged]
    rfl
  · show Watched.notify (World.stepped steps) watched = Reply.pure () watched
    simp only [Watched.notify, hq.stepped]
    rfl

namespace Machine

/-! ## Runs with values below -/

/-- **The frame law of the stack.** A run that ends otherwise than for want of values ends in the
same way with more values below its stack: they stay where they are, and the pending terms, the
definitions, the dice, the world, what was shown, the count, the phase and the error are the same.
The world is any quiet one, so also one that is `Watched`: the requests are the same as well. -/
theorem run_frame {σ : Type} [World σ] (hq : QuietHooks σ) {m : Machine σ} (hm : m.Unhosted)
    (terms : List String) (stack below : List Int)
    (hends : ∀ fault, (stateOf (run (m.load terms stack))).error = some fault →
      ¬ fault.IsUnderflow) :
    EndsAlike below 0 (run (m.load terms stack)) (run (m.load terms (stack ++ below))) := by
  have hload : Extends below [] 0 (m.load terms stack) (m.load terms (stack ++ below)) := by
    have hextends := load_extends m terms [] stack below
    rwa [List.append_nil] at hextends
  have hunhosted : (m.load terms stack).Unhosted := (load_sameSetup m terms stack).unhosted hm
  rw [stateOf_run] at hends
  have hallowance : (m.load terms (stack ++ below)).allowance = (m.load terms stack).allowance :=
    allowance_congr hload.maxSteps
  have hfollows := finishWithin_extends hq hunhosted hload (Or.inl rfl) (Or.inr hends) (Or.inl rfl)
  exact run_endsAlike (by rw [hallowance]) hfollows

/-- A run that looks, branches, moves and then divides by zero fails alike with two values below. -/
theorem run_frame_divides :
    (stateOf (run ((plain (⟨{}, []⟩ : Watched Plane) 9).load
      ["PUSH", "1", "LOOK", "IF", "POP", "ELSE", "RIGHT", "END", "DIV"] [0, 5]))).error =
        some (.divideByZero "DIV") ∧
    (stateOf (run ((plain (⟨{}, []⟩ : Watched Plane) 9).load
      ["PUSH", "1", "LOOK", "IF", "POP", "ELSE", "RIGHT", "END", "DIV"]
      [0, 5]))).memory.world.calls =
        [.move .right, .lookAt ⟨0, -1⟩, .position] ∧
    EndsAlike [41, 42] 0
      (run ((plain (⟨{}, []⟩ : Watched Plane) 9).load
        ["PUSH", "1", "LOOK", "IF", "POP", "ELSE", "RIGHT", "END", "DIV"] [0, 5]))
      (run ((plain (⟨{}, []⟩ : Watched Plane) 9).load
        ["PUSH", "1", "LOOK", "IF", "POP", "ELSE", "RIGHT", "END", "DIV"]
        ([0, 5] ++ [41, 42]))) := by
  have herror : (stateOf (run ((plain (⟨{}, []⟩ : Watched Plane) 9).load
      ["PUSH", "1", "LOOK", "IF", "POP", "ELSE", "RIGHT", "END", "DIV"] [0, 5]))).error =
        some (.divideByZero "DIV") := by
    decide +kernel
  have hunhosted : (plain (⟨{}, []⟩ : Watched Plane) 9).Unhosted := catalogue_unhosted rfl
  refine ⟨herror, by decide +kernel, ?_⟩
  -- From here on the machine is kept folded.
  generalize plain (⟨{}, []⟩ : Watched Plane) 9 = m at herror hunhosted
  apply run_frame (quietHooks_watched quietHooks_plane) hunhosted
  intro fault hfault hunderflow
  obtain ⟨name, required, actual, rfl⟩ := hunderflow
  rw [herror] at hfault
  cases hfault

end Machine

end StackRover
