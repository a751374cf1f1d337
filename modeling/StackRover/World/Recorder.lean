import StackRover.World.Plane

/-!
# Recording worlds

A world that writes down the requests it gets. Its player never moves. Each kind of request can be
made to raise something, from a chosen call on.

* `Recorder.answer`: a request is recorded first, then counted, then answered or refused.
-/

namespace StackRover

/-- The kinds of request. -/
inductive Request where
  | move
  | lookAt
  | position
  | stackChanged
  | stepped
  deriving Repr, DecidableEq

/-- A request with its arguments. -/
inductive Call where
  | move (direction : Direction)
  | lookAt (cell : Position)
  | position
  | stackChanged (stack : List Int)
  | stepped (steps : Nat)
  deriving Repr, DecidableEq

/-- The kind of a request. -/
def Call.request : Call → Request
  | move _ => .move
  | lookAt _ => .lookAt
  | position => .position
  | stackChanged _ => .stackChanged
  | stepped _ => .stepped

/-- Whether the request only notifies the world. -/
def Call.isNotice : Call → Bool
  | stackChanged _ | stepped _ => true
  | _ => false

/-- How often each kind of request was made. -/
structure Tally where
  move : Nat := 0
  lookAt : Nat := 0
  position : Nat := 0
  stackChanged : Nat := 0
  stepped : Nat := 0
  deriving Repr, DecidableEq

/-- The count of one kind. -/
def Tally.count (tally : Tally) : Request → Nat
  | .move => tally.move
  | .lookAt => tally.lookAt
  | .position => tally.position
  | .stackChanged => tally.stackChanged
  | .stepped => tally.stepped

/-- Count one more request. -/
def Tally.bump (tally : Tally) : Request → Tally
  | .move => { tally with move := tally.move + 1 }
  | .lookAt => { tally with lookAt := tally.lookAt + 1 }
  | .position => { tally with position := tally.position + 1 }
  | .stackChanged => { tally with stackChanged := tally.stackChanged + 1 }
  | .stepped => { tally with stepped := tally.stepped + 1 }

/-- What a kind of request raises, from the call with the given number on. -/
structure Sabotage where
  raised : Raised
  start : Int := 1
  deriving Repr, DecidableEq

/-- A world that writes down the requests it gets. -/
structure Recorder where
  layout : Layout := fun _ => .empty
  /-- Where the player is, all the time. -/
  position : Position := ⟨0, 0⟩
  /-- Whether notifications are written down too. -/
  notices : Bool := false
  /-- What requests are made to raise. -/
  sabotage : Request → Option Sabotage := fun _ => none
  /-- How often each kind of request was made. -/
  tally : Tally := {}
  /-- The recorded requests, the latest first. -/
  calls : List Call := []

namespace Recorder

/-- The recorder after it has written down and counted a request. -/
def record (recorder : Recorder) (call : Call) : Recorder :=
  { recorder with
    tally := recorder.tally.bump call.request
    calls := if call.isNotice && !recorder.notices then recorder.calls else call :: recorder.calls }

/-- What the latest request of a kind raises. -/
def refusal? (recorder : Recorder) (request : Request) : Option Raised :=
  match recorder.sabotage request with
  | some sabotage =>
    if sabotage.start ≤ recorder.tally.count request then some sabotage.raised else none
  | none => none

/-- Record a request, then answer or refuse it. -/
def answer {α : Type} (call : Call) (value : α) (recorder : Recorder) : Reply Recorder α :=
  let after := recorder.record call
  match after.refusal? call.request with
  | some raised => ⟨.error raised, after, []⟩
  | none => .pure value after

end Recorder

instance : World Recorder where
  move d := Recorder.answer (.move d) ()
  lookAt p recorder := recorder.answer (.lookAt p) (recorder.layout p)
  position recorder := recorder.answer .position recorder.position
  stackChanged stack := Recorder.answer (.stackChanged stack) ()
  stepped steps := Recorder.answer (.stepped steps) ()

end StackRover
