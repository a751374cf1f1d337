import StackRover.Builtin.Effect

/-!
# The effects of the built-in operations, one by one

What each built-in operation makes of a memory whose stack is deep enough, written out as a result.
The operations that edit the pending terms are `PUSH`, `IF` and `DEF`; the others touch neither the
pending terms nor the definitions.

* `pushLiteral_cons`, `choose_cons`, `bind_cons`: the three operations that read ahead.
* `perform_keeps`: what the operations that do not read ahead leave as it was.
-/

namespace StackRover

/-! ## Computations with a state

How the parts of a computation act on the state that they are given. -/

section Computations

variable {ε τ α β : Type}

/-- The state that a computation leaves, whether it gives a value or raises something. -/
def stateOf : EStateM.Result ε τ α → τ
  | .ok _ state => state
  | .error _ state => state

@[simp] theorem stateOf_ok (a : α) (t : τ) :
    stateOf (.ok a t : EStateM.Result ε τ α) = t := rfl

@[simp] theorem stateOf_error (e : ε) (t : τ) :
    stateOf (.error e t : EStateM.Result ε τ α) = t := rfl

/-- The result with its state replaced. -/
def mapState (f : τ → τ) : EStateM.Result ε τ α → EStateM.Result ε τ α
  | .ok a t => .ok a (f t)
  | .error e t => .error e (f t)

/-- The value that a computation gives, if it raises nothing. -/
def valueOf : EStateM.Result ε τ α → Option α
  | .ok a _ => some a
  | .error _ _ => none

theorem eq_ok_of_valueOf {r : EStateM.Result ε τ α} {a : α} (h : valueOf r = some a) :
    r = .ok a (stateOf r) := by
  cases r with
  | ok b t =>
    cases h
    rfl
  | error e t => cases h

/-- What a computation raises, if it raises something. -/
def raisedOf : EStateM.Result ε τ α → Option ε
  | .ok _ _ => none
  | .error e _ => some e

theorem eq_error_of_raisedOf {r : EStateM.Result ε τ α} {e : ε} (h : raisedOf r = some e) :
    r = .error e (stateOf r) := by
  cases r with
  | ok a t => cases h
  | error e' t =>
    cases h
    rfl

theorem bind_apply (x : EStateM ε τ α) (f : α → EStateM ε τ β) (t : τ) :
    (x >>= f) t =
      match x t with
      | .ok a t' => f a t'
      | .error e t' => .error e t' := rfl

theorem bind_apply_ok {x : EStateM ε τ α} {f : α → EStateM ε τ β} {t t' : τ} {a : α}
    (h : x t = .ok a t') : (x >>= f) t = f a t' := by
  rw [bind_apply, h]

theorem bind_apply_error {x : EStateM ε τ α} {f : α → EStateM ε τ β} {t t' : τ} {e : ε}
    (h : x t = .error e t') : (x >>= f) t = .error e t' := by
  rw [bind_apply, h]

@[simp] theorem pure_apply (a : α) (t : τ) : (pure a : EStateM ε τ α) t = .ok a t := rfl

@[simp] theorem throw_apply (e : ε) (t : τ) : (throw e : EStateM ε τ α) t = .error e t := rfl

@[simp] theorem get_apply (t : τ) : (get : EStateM ε τ τ) t = .ok t t := rfl

@[simp] theorem modify_apply (f : τ → τ) (t : τ) :
    (modify f : EStateM ε τ PUnit) t = .ok ⟨⟩ (f t) := rfl

end Computations

namespace Builtin

variable {σ : Type}

/-! ## Operations that read ahead -/

/-- The value that the operand of a `PUSH` denotes, or what is raised instead. -/
def digit (operand : String) : Except Raised Int :=
  match Text.readLiteral operand with
  | .malformed => .error (Raised.ofFault (.unknownInstruction operand))
  | .tooLong digits => .error (.failure (.tooManyDigits (some digits)))
  | .value value =>
    if 0 ≤ value ∧ value ≤ 9 then .ok value else .error (Raised.ofFault (.outOfRange value))

theorem pushLiteral_nil {m : Memory σ} (h : m.pending = []) :
    pushLiteral m = .error (Raised.ofFault (.emptyStream "PUSH")) m := by
  simp [pushLiteral, bind_apply, Task.nextTerm, h]

theorem pushLiteral_cons {m : Memory σ} {operand : String} {rest : List String}
    (h : m.pending = operand :: rest) :
    pushLiteral m =
      match digit operand with
      | .ok value => .ok () { m with stack := value :: m.stack, pending := rest }
      | .error raised => .error raised { m with pending := rest } := by
  simp only [pushLiteral, bind_apply, Task.nextTerm, h, digit]
  cases Text.readLiteral operand with
  | malformed => rfl
  | tooLong digits => rfl
  | value value => by_cases hvalue : 0 ≤ value ∧ value ≤ 9 <;> simp [hvalue, Task.push, Task.raise]

theorem choose_error {m : Memory σ} {fault : Fault}
    (h : Block.Arms.split m.pending = .error fault) :
    choose m = .error (Raised.ofFault fault) m := by
  simp [choose, bind_apply, h, Task.ofExcept, Task.raise]

theorem choose_cons {m : Memory σ} {arms : Block.Arms} {condition : Int} {stack : List Int}
    (h : Block.Arms.split m.pending = .ok arms) (hs : m.stack = condition :: stack) :
    choose m = .ok ()
      { m with
        stack := stack
        pending :=
          (if condition ≠ 0 then arms.onTrue else arms.onFalse) ++
            m.pending.drop (arms.close + 1) } := by
  simp [choose, bind_apply, h, Task.ofExcept, Task.pop, hs, Task.splice]

theorem bind_nil {m : Memory σ} (h : m.pending = []) :
    Builtin.bind m = .error (Raised.ofFault (.emptyStream "DEF")) m := by
  simp [Builtin.bind, bind_apply, Task.nextTerm, h]

theorem bind_error {m : Memory σ} {name : String} {rest : List String} {fault : Fault}
    (h : m.pending = name :: rest) (hclose : Block.closing rest = .error fault) :
    Builtin.bind m = .error (Raised.ofFault fault) { m with pending := rest } := by
  simp [Builtin.bind, bind_apply, Task.nextTerm, h, hclose, Task.ofExcept, Task.raise]

/-- The journal after a name was bound: a binding that replaces another is logged. -/
def bindingJournal (m : Memory σ) (name : String) : List Event :=
  if m.definitions.contains name then .log (.redefining name) :: m.journal else m.journal

theorem bind_cons {m : Memory σ} {name : String} {rest : List String} {close : Nat}
    (h : m.pending = name :: rest) (hclose : Block.closing rest = .ok close) :
    Builtin.bind m = .ok ()
      { m with
        pending := rest.drop (close + 1)
        definitions := m.definitions.insert ⟨name, rest.take close⟩
        journal := bindingJournal m name } := by
  simp only [Builtin.bind, bind_apply, Task.nextTerm, h, get_apply, hclose, Task.ofExcept,
    pure_apply, modify_apply, Task.define, bindingJournal]
  cases m.definitions.contains name <;> rfl

/-! ## Operations on the stack -/

theorem divide_cons {m : Memory σ} {a b : Int} {stack : List Int} (name : String)
    (f : Int → Int → Int) (h : m.stack = b :: a :: stack) :
    divide name f m =
      if b = 0 then .error (Raised.ofFault (.divideByZero name)) m
      else .ok () { m with stack := f a b :: stack } := by
  by_cases hb : b = 0
  · simp [divide, bind_apply, h, hb, Task.raise]
  · simp [divide, bind_apply, h, hb, combine, Task.rearrange]

theorem roll_cons {m : Memory σ} {minimum maximum : Int} {stack : List Int}
    (h : m.stack = maximum :: minimum :: stack) :
    roll m =
      if maximum ≤ minimum then
        .error (Raised.ofFault (.invalidRange minimum maximum)) { m with stack := stack }
      else .ok ()
        { m with
          stack := m.dice.face minimum maximum :: stack
          dice := m.dice.rolledFor minimum maximum } := by
  by_cases hb : maximum ≤ minimum
  · simp [roll, bind_apply, Task.pop, h, hb, Task.raise]
  · simp [roll, bind_apply, Task.pop, h, hb, Task.push]

/-! ## Operations on the world -/

variable [World σ]

theorem moveByCode_cons {m : Memory σ} {code : Int} {stack : List Int}
    (h : m.stack = code :: stack) :
    moveByCode m =
      match Direction.ofCode? code with
      | some direction => Task.ask (World.move direction) { m with stack := stack }
      | none => .ok () { m with stack := stack } := by
  simp only [moveByCode, bind_apply, Task.pop, h]
  cases Direction.ofCode? code <;> rfl

theorem lookByCode_cons {m : Memory σ} {code : Int} {stack : List Int}
    (h : m.stack = code :: stack) :
    lookByCode m =
      match Direction.ofCode? code with
      | none | some .stay => .ok () { m with stack := stack }
      | some direction => inspect direction { m with stack := stack } := by
  simp only [lookByCode, bind_apply, Task.pop, h]
  cases Direction.ofCode? code with
  | none => rfl
  | some direction => cases direction <;> rfl

end Builtin

/-! ## What stays as it was -/

/-- The fault of a program whose blocks are not opened and closed in pairs. -/
def Fault.IsStructural : Fault → Prop
  | .unterminatedBlock => True
  | .unknownInstruction token => token = "END" ∨ token = "ELSE"
  | .emptyStream name => name = "DEF"
  | _ => False

/-- What is raised is no structural fault. -/
def Raised.IsMild (raised : Raised) : Prop :=
  ∀ fault, raised = .fault fault → ¬ fault.IsStructural

theorem Raised.isMild_failure (failure : Failure) : (Raised.failure failure).IsMild := by
  intro fault hfault
  cases hfault

theorem Raised.isMild_ofFault {fault : Fault} (h : ¬ fault.IsStructural) :
    (Raised.ofFault fault).IsMild := by
  intro other hother
  unfold Raised.ofFault at hother
  split at hother
  · cases hother
    exact h
  · cases hother

/-- All that requests to the world raise is permitted. -/
structure RaisesOnly (σ : Type) [World σ] (permitted : Raised → Prop) : Prop where
  move : ∀ direction (w : σ) raised, (World.move direction w).result = .error raised →
    permitted raised
  lookAt : ∀ cell (w : σ) raised, (World.lookAt cell w).result = .error raised → permitted raised
  position : ∀ (w : σ) raised, (World.position w).result = .error raised → permitted raised
  stackChanged : ∀ stack (w : σ) raised, (World.stackChanged stack w).result = .error raised →
    permitted raised
  stepped : ∀ steps (w : σ) raised, (World.stepped steps w).result = .error raised →
    permitted raised

theorem RaisesOnly.mono {σ : Type} [World σ] {permitted permitted' : Raised → Prop}
    (h : RaisesOnly σ permitted) (himp : ∀ raised, permitted raised → permitted' raised) :
    RaisesOnly σ permitted' where
  move direction w raised hraised := himp raised (h.move direction w raised hraised)
  lookAt cell w raised hraised := himp raised (h.lookAt cell w raised hraised)
  position w raised hraised := himp raised (h.position w raised hraised)
  stackChanged stack w raised hraised := himp raised (h.stackChanged stack w raised hraised)
  stepped steps w raised hraised := himp raised (h.stepped steps w raised hraised)

theorem raisesOnly_any (σ : Type) [World σ] : RaisesOnly σ fun _ => True :=
  ⟨fun _ _ _ _ => trivial, fun _ _ _ _ => trivial, fun _ _ _ => trivial, fun _ _ _ _ => trivial,
    fun _ _ _ _ => trivial⟩

/-- The task touches neither the pending terms nor the definitions, and all that it raises is
permitted. -/
structure Task.Keeps {σ α : Type} (permitted : Raised → Prop) (task : Task σ α) : Prop where
  pending : ∀ m : Memory σ, (stateOf (task m)).pending = m.pending
  definitions : ∀ m : Memory σ, (stateOf (task m)).definitions = m.definitions
  raises : ∀ (m m' : Memory σ) raised, task m = .error raised m' → permitted raised

namespace Task.Keeps

variable {σ α β : Type} {permitted : Raised → Prop}

theorem pure (a : α) : Task.Keeps permitted (Pure.pure a : Task σ α) :=
  ⟨fun _ => rfl, fun _ => rfl, fun _ _ _ h => by cases h⟩

theorem get : Task.Keeps permitted (MonadState.get : Task σ (Memory σ)) :=
  ⟨fun _ => rfl, fun _ => rfl, fun _ _ _ h => by cases h⟩

theorem push (value : Int) : Task.Keeps permitted (Task.push value : Task σ Unit) :=
  ⟨fun _ => rfl, fun _ => rfl, fun _ _ _ h => by cases h⟩

theorem raise {fault : Fault} (h : permitted (Raised.ofFault fault)) :
    Task.Keeps permitted (Task.raise fault : Task σ α) := by
  refine ⟨fun _ => rfl, fun _ => rfl, ?_⟩
  intro m m' raised hraised
  cases hraised
  exact h

theorem bind {task : Task σ α} {next : α → Task σ β} (h : task.Keeps permitted)
    (hnext : ∀ a, (next a).Keeps permitted) : Task.Keeps permitted (task >>= next) := by
  refine ⟨fun m => ?_, fun m => ?_, fun m m' raised => ?_⟩
  · have hm := h.pending m
    rw [bind_apply]
    cases ht : task m with
    | ok a n =>
      rw [ht] at hm
      exact ((hnext a).pending n).trans hm
    | error e n =>
      rw [ht] at hm
      exact hm
  · have hm := h.definitions m
    rw [bind_apply]
    cases ht : task m with
    | ok a n =>
      rw [ht] at hm
      exact ((hnext a).definitions n).trans hm
    | error e n =>
      rw [ht] at hm
      exact hm
  · rw [bind_apply]
    cases ht : task m with
    | ok a n => exact (hnext a).raises n m' raised
    | error e n =>
      intro hraised
      cases hraised
      exact h.raises m m' raised ht

theorem pop (hempty : permitted (.failure .emptyStack)) :
    Task.Keeps permitted (Task.pop : Task σ Int) := by
  refine ⟨fun m => ?_, fun m => ?_, fun m m' raised hraised => ?_⟩
  · unfold Task.pop
    split <;> rfl
  · unfold Task.pop
    split <;> rfl
  · unfold Task.pop at hraised
    split at hraised
    · cases hraised
    · cases hraised
      exact hempty

theorem rearrange (hempty : permitted (.failure .emptyStack))
    (change : List Int → Option (List Int)) :
    Task.Keeps permitted (Task.rearrange change : Task σ Unit) := by
  refine ⟨fun m => ?_, fun m => ?_, fun m m' raised hraised => ?_⟩
  · unfold Task.rearrange
    split <;> rfl
  · unfold Task.rearrange
    split <;> rfl
  · unfold Task.rearrange at hraised
    split at hraised
    · cases hraised
    · cases hraised
      exact hempty

theorem ask {request : σ → Reply σ α}
    (h : ∀ w raised, (request w).result = .error raised → permitted raised) :
    Task.Keeps permitted (Task.ask request) := by
  refine ⟨fun m => ?_, fun m => ?_, fun m m' raised hraised => ?_⟩
  · simp only [Task.ask]
    split <;> rfl
  · simp only [Task.ask]
    split <;> rfl
  · simp only [Task.ask] at hraised
    split at hraised
    · cases hraised
    · rename_i hresult
      cases hraised
      exact h _ _ hresult

end Task.Keeps

namespace Builtin

variable {σ : Type} [World σ] {permitted : Raised → Prop}

/-- Whether the operation takes terms from the program beyond its own. -/
def readsAhead : Builtin → Bool
  | push | branch | define => true
  | _ => false

/-- An operation that does not read ahead leaves the pending terms and the definitions as they were,
and raises no structural fault of its own. -/
theorem perform_keeps (hworld : RaisesOnly σ permitted)
    (hmild : ∀ raised : Raised, raised.IsMild → permitted raised) {builtin : Builtin}
    (h : builtin.readsAhead = false) :
    Task.Keeps permitted (builtin.perform : Task σ Unit) := by
  have hempty : permitted (.failure .emptyStack) := hmild _ (Raised.isMild_failure _)
  have hraise : ∀ fault : Fault, ¬ fault.IsStructural → permitted (Raised.ofFault fault) :=
    fun fault hfault => hmild _ (Raised.isMild_ofFault hfault)
  have hdivide : ∀ name f, Task.Keeps permitted (divide name f : Task σ Unit) := by
    intro name f
    refine .bind .get fun m => ?_
    split
    · exact .bind (.raise (hraise _ id)) fun _ => .rearrange hempty _
    · exact .rearrange hempty _
  cases builtin with
  | push | branch | define => cases h
  | pop | dup | swap | rot3 | add | sub | mul =>
    unfold perform
    exact .rearrange hempty _
  | div | mod => exact hdivide _ _
  | rand =>
    refine .bind (.pop hempty) fun maximum => .bind (.pop hempty) fun minimum => ?_
    have hroll : Task.Keeps permitted (do
        let dice := (← get).dice
        modify fun memory => { memory with dice := dice.rolledFor minimum maximum }
        Task.push (dice.face minimum maximum) : Task σ Unit) := by
      refine .bind .get fun m => .bind ?_ fun _ => .push _
      exact ⟨fun _ => rfl, fun _ => rfl, fun _ _ _ h => by cases h⟩
    split
    · exact .bind (.raise (hraise _ id)) fun _ => hroll
    · exact hroll
  | move =>
    refine .bind (.pop hempty) fun code => ?_
    split
    · exact .ask (hworld.move _)
    · exact .pure ()
  | go direction => exact .ask (hworld.move direction)
  | look =>
    refine .bind (.pop hempty) fun code => ?_
    split
    · exact .pure ()
    · exact .pure ()
    · refine .bind (.ask hworld.position) fun here => ?_
      refine .bind (.ask (hworld.lookAt _)) fun object => ?_
      split
      · exact .push _
      · exact .raise (hraise _ id)

end Builtin

end StackRover
