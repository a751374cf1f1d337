import StackRover.Proofs.Brackets
import StackRover.Proofs.Stepping

/-!
# Memories that hold more

A memory extends another if it has more values below those of its stack and more terms after its
pending ones. No built-in operation that finds enough values on the stack of the smaller memory, and
all of the terms that it reads ahead, can tell the two apart.

* `Memory.Extends`: the relation between the two memories.
* `Builtin.perform_extends`: each built-in operation respects it.
-/

namespace StackRover

/-! ## What a run shows -/

/-- Whether the event belongs to the machine's own log. -/
def Event.isOwnLog : Event → Bool
  | .log (.started _) | .log (.completed _) | .log (.failed ..) | .log (.stack _)
  | .log (.pending _) | .log (.calling _) | .log (.redefining _) => true
  | _ => false

/-- What was shown to the outside, apart from the machine's own log; the latest comes first. -/
def Memory.shown {σ : Type} (m : Memory σ) : List Event :=
  m.journal.filter (fun event => !event.isOwnLog)

theorem Memory.shown_noted {σ : Type} (m : Memory σ) (debug : Bool) {messages : List Message}
    (h : ∀ message ∈ messages, (Event.log message).isOwnLog = true) :
    (m.noted debug messages).shown = m.shown := by
  have hnone : (messages.map Event.log).filter (fun event => !event.isOwnLog) = [] := by
    rw [List.filter_eq_nil_iff]
    intro event hevent
    obtain ⟨message, hmessage, rfl⟩ := List.mem_map.mp hevent
    simp [h message hmessage]
  cases debug
  · rfl
  · simp [Memory.shown, Memory.noted, hnone]

theorem Machine.shown_looked {σ : Type} (m : Machine σ) : m.looked.shown = m.memory.shown :=
  m.memory.shown_noted _ (by simp [Event.isOwnLog])

theorem Machine.shown_taken {σ : Type} (m : Machine σ) (name : String) (rest : List String) :
    (m.taken name rest).shown = m.memory.shown :=
  { m.memory with pending := rest }.shown_noted _ (by simp [Event.isOwnLog])

/-! ## Results that go together -/

/-- The second result follows the first: a value is the same in both, and so is what was raised, as
far as it is `binding`; the states that are left are related. -/
def Follows {ε τ α : Type} (related : τ → τ → Prop) (binding : ε → Prop) :
    EStateM.Result ε τ α → EStateM.Result ε τ α → Prop
  | .ok a s, result => ∃ t, result = .ok a t ∧ related s t
  | .error e s, result => binding e → ∃ t, result = .error e t ∧ related s t

namespace Follows

variable {ε τ α β : Type} {related : τ → τ → Prop} {binding : ε → Prop}

theorem bind {x y : EStateM ε τ α} {f : α → EStateM ε τ β} {s t : τ}
    (h : Follows related binding (x s) (y t))
    (hf : ∀ a s' t', related s' t' → Follows related binding (f a s') (f a t')) :
    Follows related binding ((x >>= f) s) ((y >>= f) t) := by
  rw [bind_apply, bind_apply]
  cases hx : x s with
  | ok a s' =>
    rw [hx] at h
    obtain ⟨t', hy, hrelated⟩ := h
    rw [hy]
    exact hf a s' t' hrelated
  | error e s' =>
    rw [hx] at h
    intro hbinding
    obtain ⟨t', hy, hrelated⟩ := h hbinding
    rw [hy]
    exact ⟨t', rfl, hrelated⟩

theorem mono {binding' : ε → Prop} {r r' : EStateM.Result ε τ α}
    (h : Follows related binding r r') (hb : ∀ e, binding' e → binding e) :
    Follows related binding' r r' := by
  cases r with
  | ok a s => exact h
  | error e s => exact fun he => h (hb e he)

theorem ok {s t : τ} (a : α) (h : related s t) :
    Follows related binding (.ok a s) (.ok a t) := ⟨t, rfl, h⟩

theorem error {s t : τ} (e : ε) (h : related s t) :
    Follows (α := α) related binding (.error e s) (.error e t) := fun _ => ⟨t, rfl, h⟩

end Follows

/-! ## The relation -/

/-- The second memory has `below` under its stack and `after` behind its pending terms; otherwise it
is the same but for the machine's own log. -/
structure Memory.Extends {σ : Type} (below : List Int) (after : List String) (m m' : Memory σ) :
    Prop where
  stack : m'.stack = m.stack ++ below
  pending : m'.pending = m.pending ++ after
  definitions : m'.definitions = m.definitions
  dice : m'.dice = m.dice
  world : m'.world = m.world
  shown : m'.shown = m.shown

namespace Memory.Extends

variable {σ : Type} {below : List Int} {after : List String} {m m' : Memory σ}

theorem withStack (h : Extends below after m m') (stack : List Int) :
    Extends below after { m with stack := stack } { m' with stack := stack ++ below } :=
  ⟨rfl, h.pending, h.definitions, h.dice, h.world, h.shown⟩

theorem withPending (h : Extends below after m m') (pending : List String) :
    Extends below after { m with pending := pending } { m' with pending := pending ++ after } :=
  ⟨h.stack, rfl, h.definitions, h.dice, h.world, h.shown⟩

end Memory.Extends

namespace Builtin

variable {σ : Type} {below : List Int} {after : List String} {m m' : Memory σ}

open Memory (Extends)

theorem ask_extends {α : Type} {binding : Raised → Prop} (h : Extends below after m m')
    (request : σ → Reply σ α) :
    Follows (Extends below after) binding (Task.ask request m) (Task.ask request m') := by
  have hafter : Extends below after
      { m with
        world := (request m.world).world
        journal := (request m.world).events.reverse ++ m.journal }
      { m' with
        world := (request m.world).world
        journal := (request m.world).events.reverse ++ m'.journal } := by
    refine ⟨h.stack, h.pending, h.definitions, h.dice, rfl, ?_⟩
    have hshown := h.shown
    simp only [Memory.shown, List.filter_append] at hshown ⊢
    rw [hshown]
  simp only [Task.ask, h.world]
  cases (request m.world).result with
  | ok value => exact .ok value hafter
  | error raised => exact .error raised hafter

theorem rearrange_extends {binding : Raised → Prop} (h : Extends below after m m')
    {change : List Int → Option (List Int)} {stack : List Int} (hm : change m.stack = some stack)
    (hm' : change (m.stack ++ below) = some (stack ++ below)) :
    Follows (Extends below after) binding (Task.rearrange change m) (Task.rearrange change m') := by
  simp only [Task.rearrange, h.stack, hm, hm']
  exact .ok () (h.withStack stack)

theorem pushLiteral_extends (h : Extends below after m m') :
    Follows (Extends below after) (fun _ => after = []) (pushLiteral m) (pushLiteral m') := by
  cases hp : m.pending with
  | nil =>
    rw [pushLiteral_nil hp]
    intro hafter
    have hp' : m'.pending = [] := by rw [h.pending, hp, hafter]; rfl
    exact ⟨m', pushLiteral_nil hp', h⟩
  | cons operand rest =>
    have hp' : m'.pending = operand :: (rest ++ after) := by rw [h.pending, hp]; rfl
    rw [pushLiteral_cons hp, pushLiteral_cons hp']
    cases digit operand with
    | ok value =>
      have hstack : m'.stack = m.stack ++ below := h.stack
      simp only [hstack]
      exact .ok () ((h.withStack (value :: m.stack)).withPending rest)
    | error raised => exact .error raised (h.withPending rest)

theorem choose_extends (h : Extends below after m m') {condition : Int} {stack : List Int}
    (hs : m.stack = condition :: stack) :
    Follows (Extends below after) (fun _ => after = []) (choose m) (choose m') := by
  have hs' : m'.stack = condition :: (stack ++ below) := by rw [h.stack, hs]; rfl
  cases hsplit : Block.Arms.split m.pending with
  | error fault =>
    rw [choose_error hsplit]
    intro hafter
    have hp' : m'.pending = m.pending := by rw [h.pending, hafter, List.append_nil]
    exact ⟨m', choose_error (hp' ▸ hsplit), h⟩
  | ok arms =>
    obtain ⟨hsplit', hclose⟩ := Block.Arms.split_append hsplit after
    rw [← h.pending] at hsplit'
    rw [choose_cons hsplit hs, choose_cons hsplit' hs']
    have hdrop : m'.pending.drop (arms.close + 1) = m.pending.drop (arms.close + 1) ++ after := by
      rw [h.pending, List.drop_append_of_le_length (by omega)]
    rw [hdrop, ← List.append_assoc]
    exact .ok () ((h.withStack stack).withPending _)

theorem shown_bindingJournal (m : Memory σ) (name : String) :
    (bindingJournal m name).filter (fun event => !event.isOwnLog) = m.shown := by
  unfold bindingJournal
  split <;> rfl

theorem bind_extends (h : Extends below after m m') :
    Follows (Extends below after) (fun _ => after = []) (Builtin.bind m) (Builtin.bind m') := by
  cases hp : m.pending with
  | nil =>
    rw [bind_nil hp]
    intro hafter
    have hp' : m'.pending = [] := by rw [h.pending, hp, hafter]; rfl
    exact ⟨m', bind_nil hp', h⟩
  | cons name rest =>
    have hp' : m'.pending = name :: (rest ++ after) := by rw [h.pending, hp]; rfl
    cases hclose : Block.closing rest with
    | error fault =>
      rw [bind_error hp hclose]
      intro hafter
      subst hafter
      have hclose' : Block.closing (rest ++ []) = .error fault := by
        rw [List.append_nil, hclose]
      exact ⟨_, bind_error hp' hclose', h.withPending rest⟩
    | ok close =>
      obtain ⟨hclose', hlt⟩ := Block.closing_append hclose after
      rw [bind_cons hp hclose, bind_cons hp' hclose', List.take_append_of_le_length (by omega),
        List.drop_append_of_le_length (by omega)]
      refine .ok () ⟨h.stack, rfl, ?_, h.dice, h.world, ?_⟩
      · simp only [h.definitions]
      · exact (shown_bindingJournal m' name).trans
          (h.shown.trans (shown_bindingJournal m name).symm)

variable [World σ]

theorem inspect_extends {binding : Raised → Prop} (h : Extends below after m m')
    (direction : Direction) :
    Follows (Extends below after) binding (inspect direction m) (inspect direction m') := by
  unfold inspect
  refine .bind (ask_extends h _) fun here n n' hn => ?_
  refine .bind (ask_extends hn _) fun object l l' hl => ?_
  cases object.code? with
  | some code =>
    refine .ok () ?_
    have hstack : l'.stack = l.stack ++ below := hl.stack
    simp only [hstack]
    exact hl.withStack (code :: l.stack)
  | none => exact .error _ hl

theorem exists_two {stack : List Int} (h : 2 ≤ stack.length) :
    ∃ b a rest, stack = b :: a :: rest := by
  match stack, h with
  | b :: a :: rest, _ => exact ⟨b, a, rest, rfl⟩

theorem exists_three {stack : List Int} (h : 3 ≤ stack.length) :
    ∃ c b a rest, stack = c :: b :: a :: rest := by
  match stack, h with
  | c :: b :: a :: rest, _ => exact ⟨c, b, a, rest, rfl⟩

/-- A built-in operation that finds enough values on the stack does the same on a memory that holds
more. What an operation raises that reads ahead may depend on the terms that come after. -/
theorem perform_extends (h : Extends below after m m') {builtin : Builtin}
    (hdepth : builtin.minDepth ≤ m.stack.length) :
    Follows (Extends below after) (fun _ => builtin.readsAhead = true → after = [])
      (builtin.perform m) (builtin.perform m') := by
  cases builtin with
  | push => exact (pushLiteral_extends h).mono fun _ hb => hb rfl
  | define => exact (bind_extends h).mono fun _ hb => hb rfl
  | branch =>
    obtain ⟨condition, stack, hs⟩ := List.exists_cons_of_length_pos hdepth
    exact (choose_extends h hs).mono fun _ hb => hb rfl
  | pop | dup =>
    obtain ⟨a, stack, hs⟩ := List.exists_cons_of_length_pos hdepth
    unfold perform
    exact rearrange_extends h (by rw [hs]) (by rw [hs]; rfl)
  | swap | add | sub | mul =>
    obtain ⟨b, a, stack, hs⟩ := exists_two hdepth
    unfold perform
    exact rearrange_extends h (by rw [hs]) (by rw [hs]; rfl)
  | rot3 =>
    obtain ⟨c, b, a, stack, hs⟩ := exists_three hdepth
    unfold perform
    exact rearrange_extends h (by rw [hs]) (by rw [hs]; rfl)
  | div | mod =>
    obtain ⟨b, a, stack, hs⟩ := exists_two hdepth
    have hs' : m'.stack = b :: a :: (stack ++ below) := by rw [h.stack, hs]; rfl
    simp only [perform]
    rw [divide_cons _ _ hs, divide_cons _ _ hs']
    split
    · exact .error _ h
    · exact .ok () (h.withStack _)
  | rand =>
    obtain ⟨maximum, minimum, stack, hs⟩ := exists_two hdepth
    have hs' : m'.stack = maximum :: minimum :: (stack ++ below) := by rw [h.stack, hs]; rfl
    simp only [perform]
    rw [roll_cons hs, roll_cons hs']
    split
    · exact .error _ (h.withStack stack)
    · rw [h.dice]
      exact .ok () ⟨rfl, h.pending, h.definitions, rfl, h.world, h.shown⟩
  | move =>
    obtain ⟨code, stack, hs⟩ := List.exists_cons_of_length_pos hdepth
    have hs' : m'.stack = code :: (stack ++ below) := by rw [h.stack, hs]; rfl
    simp only [perform]
    rw [moveByCode_cons hs, moveByCode_cons hs']
    cases Direction.ofCode? code with
    | some direction => exact ask_extends (h.withStack stack) _
    | none => exact .ok () (h.withStack stack)
  | go direction => exact ask_extends h _
  | look =>
    obtain ⟨code, stack, hs⟩ := List.exists_cons_of_length_pos hdepth
    have hs' : m'.stack = code :: (stack ++ below) := by rw [h.stack, hs]; rfl
    simp only [perform]
    rw [lookByCode_cons hs, lookByCode_cons hs']
    cases Direction.ofCode? code with
    | none => exact .ok () (h.withStack stack)
    | some direction =>
      cases direction with
      | stay => exact .ok () (h.withStack stack)
      | up | right | down | left => exact inspect_extends (h.withStack stack) _

end Builtin

end StackRover
