import StackRover.Proofs.Extension

/-!
# Structured programs

A structured program is a tree: conditionals have their arms and definitions their bodies as parts.
Flattening writes it as the terms that a machine executes. The evaluator works on the tree; it never
looks at terms, and it calls the body of a definition where a machine puts it before the pending
terms.

* `Phrase`, `Phrase.flatten`: structured programs and their terms.
* `Lexicon.flatten`: definitions with structured bodies, as a machine holds them.
* `Phrase.eval`: the evaluator, with the number of events and a bound on nested calls.
-/

namespace StackRover

open Block (Bracketed delimiters)

/-! ## Syntax -/

/-- The terms that the syntax of structured programs takes for itself. -/
def reserved : List String := ["IF", "ELSE", "END", "DEF", "PUSH"]

/-- A term that stands for itself in a structured program. -/
structure Word where
  text : String
  free : text ∉ reserved

/-- A term that may follow a `PUSH`. -/
structure Operand where
  text : String
  plain : text ∉ delimiters

/-- Structured programs: nothing, or a first part and the rest. -/
inductive Phrase where
  | done
  | word (word : Word) (rest : Phrase)
  | push (operand : Operand) (rest : Phrase)
  | branch (arm rest : Phrase)
  | branchElse (onTrue onFalse rest : Phrase)
  | define (name : Word) (body rest : Phrase)

/-- The terms of a structured program. -/
def Phrase.flatten : Phrase → List String
  | done => []
  | word w rest => w.text :: rest.flatten
  | push operand rest => "PUSH" :: operand.text :: rest.flatten
  | branch arm rest => "IF" :: (arm.flatten ++ "END" :: rest.flatten)
  | branchElse onTrue onFalse rest =>
    "IF" :: (onTrue.flatten ++ "ELSE" :: (onFalse.flatten ++ "END" :: rest.flatten))
  | define name body rest => "DEF" :: name.text :: (body.flatten ++ "END" :: rest.flatten)

theorem Word.not_mem_delimiters (w : Word) : w.text ∉ delimiters := by
  intro hmem
  apply w.free
  have hsub : ∀ term ∈ delimiters, term ∈ reserved := by decide
  exact hsub w.text hmem

theorem Phrase.bracketed_flatten (phrase : Phrase) : Bracketed phrase.flatten := by
  induction phrase with
  | done => exact .nil
  | word w rest ih => exact .term w.not_mem_delimiters ih
  | push operand rest ih => exact .term (by decide) (.term operand.plain ih)
  | branch arm rest iharm ih => exact .branch iharm ih
  | branchElse onTrue onFalse rest ihtrue ihfalse ih => exact .branchElse ihtrue ihfalse ih
  | define name body rest ihbody ih => exact .define name.not_mem_delimiters ihbody ih

/-! ## Definitions with structured bodies -/

/-- A name that is bound to a structured program. -/
structure Routine where
  name : Word
  body : Phrase

instance : Named Routine := ⟨fun routine => routine.name.text⟩

/-- The definition that a machine holds for a routine. -/
def Routine.flatten (routine : Routine) : Definition :=
  ⟨routine.name.text, routine.body.flatten⟩

/-- The definitions that a machine holds for the routines. -/
def Lexicon.flatten (table : Lexicon Routine) : Lexicon Definition where
  entries := table.entries.map Routine.flatten
  distinct := by
    rw [List.map_map]
    exact table.distinct

theorem place_flatten (routine : Routine) (entries : List Routine) :
    (Lexicon.place routine entries).map Routine.flatten =
      Lexicon.place routine.flatten (entries.map Routine.flatten) := by
  induction entries with
  | nil => rfl
  | cons first rest ih =>
    unfold Lexicon.place
    by_cases hname : Named.name first = Named.name routine
    · have hname' : Named.name first.flatten = Named.name routine.flatten := hname
      rw [if_pos hname, List.map_cons, List.map_cons]
      exact (if_pos hname').symm
    · have hname' : ¬ Named.name first.flatten = Named.name routine.flatten := hname
      rw [if_neg hname, List.map_cons, List.map_cons, ih]
      exact (if_neg hname').symm

theorem Lexicon.flatten_insert (table : Lexicon Routine) (routine : Routine) :
    (table.insert routine).flatten = table.flatten.insert routine.flatten := by
  apply Lexicon.ext
  exact place_flatten routine table.entries

theorem Lexicon.find?_flatten (table : Lexicon Routine) (name : String) :
    table.flatten.find? name = (table.find? name).map Routine.flatten := by
  obtain ⟨entries, distinct⟩ := table
  show (entries.map Routine.flatten).find? _ = (entries.find? _).map Routine.flatten
  rw [List.find?_map]
  rfl

/-! ## Evaluation -/

/-- What a structured program works on. -/
structure Scene (σ : Type) where
  stack : List Int
  table : Lexicon Routine
  dice : Dice
  world : σ
  /-- What was shown to the outside, the latest first. -/
  shown : List Event := []

/-- What comes of an evaluation. The events are the words, operands, conditionals, definitions and
calls that were carried out; what raises something is no event. -/
inductive Outcome (σ : Type) where
  | ended (events : Nat) (scene : Scene σ)
  | raised (events : Nat) (raised : Raised) (scene : Scene σ)
  /-- Calls were nested more deeply than was allowed for. -/
  | unfinished

namespace Outcome

variable {σ : Type}

/-- The outcome with so many events before it. -/
def later (events : Nat) : Outcome σ → Outcome σ
  | ended n scene => ended (events + n) scene
  | raised n r scene => raised (events + n) r scene
  | unfinished => unfinished

/-- Go on from where an evaluation has ended. -/
def andThen (outcome : Outcome σ) (next : Scene σ → Outcome σ) : Outcome σ :=
  match outcome with
  | ended n scene => (next scene).later n
  | raised n r scene => raised n r scene
  | unfinished => unfinished

/-- The number of events and the stack of an evaluation that has ended. -/
def result? : Outcome σ → Option (Nat × List Int)
  | ended n scene => some (n, scene.stack)
  | _ => none

end Outcome

namespace Scene

variable {σ : Type}

/-- The memory of a machine in which the scene is set and no terms are pending. -/
def memory (s : Scene σ) : Memory σ where
  stack := s.stack
  pending := []
  definitions := s.table.flatten
  dice := s.dice
  world := s.world
  journal := s.shown

/-- The scene with the stack, the dice and the world of a memory. -/
def withMemory (s : Scene σ) (m : Memory σ) : Scene σ :=
  { s with stack := m.stack, dice := m.dice, world := m.world, shown := m.shown }

/-- Push what an operand denotes. -/
def push (s : Scene σ) (operand : String) : Outcome σ :=
  match Builtin.digit operand with
  | .ok value => .ended 1 { s with stack := value :: s.stack }
  | .error raised => .raised 0 raised s

/-- Carry out a built-in operation. -/
def enact [World σ] (s : Scene σ) (builtin : Builtin) : Outcome σ :=
  if builtin.minDepth ≤ s.stack.length then
    match builtin.perform s.memory with
    | .ok _ m => .ended 1 (s.withMemory m)
    | .error raised m => .raised 0 raised (s.withMemory m)
  else
    .raised 0 (Raised.ofFault
      (.stackUnderflow builtin.name builtin.minDepth s.stack.length)) s

/-- Execute a word: a routine comes before a built-in operation. -/
def execute [World σ] (call : Phrase → Scene σ → Outcome σ) (s : Scene σ) (name : String) :
    Outcome σ :=
  match s.table.find? name with
  | some routine => (call routine.body s).later 1
  | none =>
    match Builtin.ofName? name with
    | some builtin => s.enact builtin
    | none => .raised 0 (Raised.ofFault (.unknownInstruction name)) s

/-- Take the condition of a conditional from the stack, and go on with what it selects. -/
def test (s : Scene σ) (select : Int → Scene σ → Outcome σ) : Outcome σ :=
  match s.stack with
  | [] => .raised 0 (Raised.ofFault (.stackUnderflow "IF" 1 0)) s
  | condition :: stack => (select condition { s with stack := stack }).later 1

/-- Bind a name. -/
def bind (s : Scene σ) (routine : Routine) : Outcome σ :=
  .ended 1 { s with table := s.table.insert routine }

end Scene

namespace Phrase

variable {σ : Type} [World σ]

/-- Evaluate a structured program, where `call` evaluates the body of a routine. -/
def evalWith (call : Phrase → Scene σ → Outcome σ) : Phrase → Scene σ → Outcome σ
  | done, s => .ended 0 s
  | word w rest, s => (s.execute call w.text).andThen (evalWith call rest)
  | push operand rest, s => (s.push operand.text).andThen (evalWith call rest)
  | branch arm rest, s =>
    (s.test fun condition s' =>
      if condition ≠ 0 then evalWith call arm s' else .ended 0 s').andThen (evalWith call rest)
  | branchElse onTrue onFalse rest, s =>
    (s.test fun condition s' =>
      if condition ≠ 0 then evalWith call onTrue s' else evalWith call onFalse s').andThen
        (evalWith call rest)
  | define name body rest, s => (s.bind ⟨name, body⟩).andThen (evalWith call rest)

/-- Evaluate a structured program in which calls are nested to the given depth at most. -/
def eval : Nat → Phrase → Scene σ → Outcome σ
  | 0 => evalWith fun _ _ => .unfinished
  | depth + 1 => evalWith (eval depth)

end Phrase

end StackRover
