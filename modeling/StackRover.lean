import StackRover.Block
import StackRover.Builtin
import StackRover.Builtin.Effect
import StackRover.Dice
import StackRover.Direction
import StackRover.Display
import StackRover.Fault
import StackRover.Folder
import StackRover.Journal
import StackRover.Launch
import StackRover.Lexicon
import StackRover.Machine
import StackRover.Machine.Desk
import StackRover.Machine.Drive
import StackRover.Machine.Reference
import StackRover.Machine.Setup
import StackRover.Machine.Step
import StackRover.Main
import StackRover.Memory
import StackRover.Object
import StackRover.Operation
import StackRover.Phase
import StackRover.Program
import StackRover.Prompt
import StackRover.Proofs.Actions
import StackRover.Proofs.Balance
import StackRover.Proofs.Batches
import StackRover.Proofs.BracketedRuns
import StackRover.Proofs.Brackets
import StackRover.Proofs.Composition
import StackRover.Proofs.Conclusion
import StackRover.Proofs.Confinement
import StackRover.Proofs.Courses
import StackRover.Proofs.Division
import StackRover.Proofs.Effects
import StackRover.Proofs.Executions
import StackRover.Proofs.Extension
import StackRover.Proofs.FailedSteps
import StackRover.Proofs.FaultOrigins
import StackRover.Proofs.Foresight
import StackRover.Proofs.HostCalls
import StackRover.Proofs.Invariants
import StackRover.Proofs.Journals
import StackRover.Proofs.Journeys
import StackRover.Proofs.Lifecycle
import StackRover.Proofs.LimitTransparency
import StackRover.Proofs.Literals
import StackRover.Proofs.Lockstep
import StackRover.Proofs.Notifications
import StackRover.Proofs.Pacing
import StackRover.Proofs.Positions
import StackRover.Proofs.ProgramText
import StackRover.Proofs.Recursion
import StackRover.Proofs.Reentry
import StackRover.Proofs.Reference
import StackRover.Proofs.Refinement
import StackRover.Proofs.Restoration
import StackRover.Proofs.Runs
import StackRover.Proofs.Scripts
import StackRover.Proofs.Sessions
import StackRover.Proofs.StackDisplay
import StackRover.Proofs.StackFrame
import StackRover.Proofs.StepLimit
import StackRover.Proofs.Stepping
import StackRover.Proofs.Structured
import StackRover.Proofs.Traces
import StackRover.Script
import StackRover.Settings
import StackRover.Text.Blank
import StackRover.Text.Case
import StackRover.Text.Decimal
import StackRover.Text.Printable
import StackRover.Text.Quoted
import StackRover.World
import StackRover.World.Plane
import StackRover.World.Recorder
import StackRover.World.Void
