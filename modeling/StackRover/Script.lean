import StackRover.Journal

/-!
# Host scripts

A host may add operations of its own. What such an operation does is a `Script`: one request to
the machine after the other, each free to depend on the answers to the earlier ones. A script may
look at the run, step the machine that is executing it, and load it anew. It does not see the
definitions, the dice and the limits of the machine, asks nothing of the world, adds no operations,
and catches nothing that a request raises.

`Script.ofActions` is the straight-line script of a list of actions.

* `Script.StepFree`, `Script.LoadFree`: the scripts that do not step, or load, the machine.
-/

namespace StackRover

/-- What a script sees of the machine. -/
structure Sight where
  /-- The values of the stack, its top first. -/
  stack : List Int
  /-- The terms still to be executed, the next one first. -/
  pending : List String
  /-- The number of terms executed in the current run. -/
  steps : Nat
  phase : Phase
  deriving Repr, DecidableEq

/-- What a host operation does to the machine. -/
inductive Script where
  /-- Nothing more. -/
  | done
  /-- Push values, the last of them on top. -/
  | push (values : List Int) (next : Script)
  /-- Take the top value. -/
  | pop (next : Int → Script)
  /-- Insert terms before the pending ones. -/
  | splice (terms : List String) (next : Script)
  /-- Take the next pending term, on behalf of the named operation. -/
  | take (name : String) (next : String → Script)
  /-- Bind a name to terms. -/
  | define (name : String) (body : List String) (next : Script)
  /-- Drop all definitions. -/
  | forget (next : Script)
  /-- Start a new run over the terms, with the given stack. -/
  | load (terms : List String) (stack : List Int) (next : Script)
  /-- Execute one term of the run. -/
  | step (next : Progress → Script)
  /-- Write down a note. -/
  | write (note : Note) (next : Script)
  /-- Look at the machine. -/
  | observe (next : Sight → Script)
  /-- Raise something. -/
  | raise (raised : Raised)

namespace Script

/-- The script does not step the machine. -/
def StepFree : Script → Prop
  | done | raise _ => True
  | push _ next | splice _ next | define _ _ next | forget next | load _ _ next
  | write _ next => next.StepFree
  | pop next => ∀ value, (next value).StepFree
  | take _ next => ∀ term, (next term).StepFree
  | observe next => ∀ sight, (next sight).StepFree
  | step _ => False

/-- The script does not load the machine. -/
def LoadFree : Script → Prop
  | done | raise _ => True
  | push _ next | splice _ next | define _ _ next | forget next | write _ next => next.LoadFree
  | pop next => ∀ value, (next value).LoadFree
  | take _ next => ∀ term, (next term).LoadFree
  | observe next => ∀ sight, (next sight).LoadFree
  | step next => ∀ progress, (next progress).LoadFree
  | load .. => False

end Script

/-- One action of a straight-line host operation. -/
inductive Action where
  /-- Push values, the last of them on top. -/
  | push (values : List Int)
  /-- Drop the top value. -/
  | pop
  /-- Insert terms before the pending ones. -/
  | splice (terms : List String)
  /-- Take a number and insert a term that often; not at all if it is negative. -/
  | repeatTerm (term : String)
  /-- Take the next pending term and write it down. -/
  | take (name : String)
  /-- Bind a name to terms. -/
  | define (name : String) (body : List String)
  /-- Drop all definitions. -/
  | forget
  /-- Start a new run over the terms, with the given stack. -/
  | load (terms : List String) (stack : List Int)
  /-- Execute one term of the run and write down its result. -/
  | step
  /-- Write down the state of the machine. -/
  | observe (text : String)
  /-- Raise something. -/
  | raise (raised : Raised)
  deriving Repr, DecidableEq

/-- The script that carries out an action and goes on. -/
def Action.andThen (action : Action) (next : Script) : Script :=
  match action with
  | push values => .push values next
  | pop => .pop (fun _ => next)
  | splice terms => .splice terms next
  | repeatTerm term => .pop (fun count => .splice (List.replicate count.toNat term) next)
  | take name => .take name (fun term => .write (.term term) next)
  | define name body => .define name body next
  | forget => .forget next
  | load terms stack => .load terms stack next
  | step => .step (fun progress => .write (.progress progress) next)
  | observe text =>
    .observe fun sight =>
      .write (.sighting text sight.stack.length sight.pending.length sight.steps sight.phase) next
  | raise raised => .raise raised

/-- The script that carries out the actions in order. -/
def Script.ofActions (actions : List Action) : Script := actions.foldr Action.andThen .done

end StackRover
