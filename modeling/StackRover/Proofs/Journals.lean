import StackRover.Proofs.Effects
import StackRover.Machine.Drive

/-!
# The journal is never read

A machine enters events into its journal and never looks at what is there already. So a step does
the same whatever was entered before it, and the events that it enters are the same.

* `Commutes`: a computation that does not notice a change of the state.
* `Machine.following`: the machine with earlier events in its journal.
* `Machine.stepAt_commutes`: a step does not notice them.
* `Machine.step_rejournal`: a step on another journal.
-/

namespace StackRover

variable {σ α β : Type}

/-! ## Computations that do not notice a change -/

/-- The computation does the same before a change of the state as after it. -/
def Commutes {ε τ : Type} (change : τ → τ) (x : EStateM ε τ α) : Prop :=
  ∀ t, x (change t) = mapState change (x t)

namespace Commutes

variable {ε τ : Type} {change : τ → τ}

theorem pure (a : α) : Commutes change (Pure.pure a : EStateM ε τ α) := fun _ => rfl

theorem throw (e : ε) : Commutes change (MonadExcept.throw e : EStateM ε τ α) := fun _ => rfl

theorem bind {x : EStateM ε τ α} {f : α → EStateM ε τ β} (hx : Commutes change x)
    (hf : ∀ a, Commutes change (f a)) : Commutes change (x >>= f) := by
  intro t
  rw [bind_apply, bind_apply, hx t]
  cases x t with
  | ok a next => exact hf a next
  | error e next => rfl

theorem update {f : τ → τ} (hf : ∀ t, f (change t) = change (f t)) :
    Commutes change (modify f : EStateM ε τ PUnit) := by
  intro t
  rw [modify_apply, modify_apply, hf]
  rfl

/-- A computation may read of the state what the change leaves. -/
theorem reads {f : τ → EStateM ε τ α} (hsame : ∀ t, f (change t) = f t)
    (hf : ∀ t, Commutes change (f t)) : Commutes change (get >>= f) := by
  intro t
  rw [bind_apply_ok (get_apply _), bind_apply_ok (get_apply t), hsame]
  exact hf t t

end Commutes

/-! ## Tasks -/

/-- The memory with earlier events in its journal. -/
def Memory.following (earlier : List Event) (m : Memory σ) : Memory σ :=
  { m with journal := m.journal ++ earlier }

namespace Task

variable {earlier : List Event}

theorem pop_commutes : Commutes (Memory.following earlier) (pop : Task σ Int) := by
  intro m
  have hstack : (m.following earlier).stack = m.stack := rfl
  unfold pop
  rw [hstack]
  cases m.stack <;> rfl

theorem rearrange_commutes (stackChange : List Int → Option (List Int)) :
    Commutes (Memory.following earlier) (rearrange stackChange : Task σ Unit) := by
  intro m
  simp only [rearrange, Memory.following]
  cases stackChange m.stack <;> rfl

theorem nextTerm_commutes (name : String) :
    Commutes (Memory.following earlier) (nextTerm name : Task σ String) := by
  intro m
  have hpending : (m.following earlier).pending = m.pending := rfl
  unfold nextTerm
  rw [hpending]
  cases m.pending <;> rfl

theorem ask_commutes (request : σ → Reply σ α) :
    Commutes (Memory.following earlier) (ask request) := by
  intro m
  simp only [ask, Memory.following, ← List.append_assoc]
  cases (request m.world).result <;> rfl

theorem ofExcept_commutes (x : Except Fault α) :
    Commutes (Memory.following earlier) (ofExcept x : Task σ α) := by
  cases x with
  | ok a => exact .pure a
  | error fault => exact .throw _

theorem define_commutes (name : String) (body : List String) :
    Commutes (Memory.following earlier) (define name body : Task σ Unit) := by
  refine .reads (fun _ => rfl) fun m => ?_
  split
  · exact .bind (.update fun _ => rfl) fun _ => .update fun _ => rfl
  · exact .update fun _ => rfl

end Task

/-! ## Built-in operations -/

namespace Builtin

variable {earlier : List Event}

theorem divide_commutes (name : String) (f : Int → Int → Int) :
    Commutes (Memory.following earlier) (divide name f : Task σ Unit) := by
  refine .reads (fun _ => rfl) fun m => ?_
  split
  · exact .bind (.throw _) fun _ => Task.rearrange_commutes _
  · exact Task.rearrange_commutes _

theorem inspect_commutes [World σ] (direction : Direction) :
    Commutes (Memory.following earlier) (inspect direction : Task σ Unit) := by
  refine .bind (Task.ask_commutes _) fun here => .bind (Task.ask_commutes _) fun object => ?_
  split
  · exact .update fun _ => rfl
  · exact .throw _

/-- No built-in operation reads the journal. -/
theorem perform_commutes [World σ] (builtin : Builtin) :
    Commutes (Memory.following earlier) (builtin.perform : Task σ Unit) := by
  cases builtin with
  | push =>
    refine .bind (Task.nextTerm_commutes _) fun term => ?_
    split
    · exact .throw _
    · exact .throw _
    · split
      · exact .update fun _ => rfl
      · exact .throw _
  | pop | dup | swap | rot3 | add | sub | mul =>
    unfold perform
    exact Task.rearrange_commutes _
  | div | mod => exact divide_commutes _ _
  | rand =>
    refine .bind Task.pop_commutes fun maximum => .bind Task.pop_commutes fun minimum => ?_
    have hroll : Commutes (Memory.following earlier) (do
        let dice := (← get).dice
        modify fun memory => { memory with dice := dice.rolledFor minimum maximum }
        Task.push (dice.face minimum maximum) : Task σ Unit) :=
      .reads (fun _ => rfl) fun m => .bind (.update fun _ => rfl) fun _ => .update fun _ => rfl
    split
    · exact .bind (.throw _) fun _ => hroll
    · exact hroll
  | branch =>
    refine .reads (fun _ => rfl) fun m => .bind (Task.ofExcept_commutes _) fun arms => ?_
    refine .bind Task.pop_commutes fun condition => .bind (.update fun _ => rfl) fun _ => ?_
    exact .update fun _ => rfl
  | define =>
    refine .bind (Task.nextTerm_commutes _) fun name => .reads (fun _ => rfl) fun m => ?_
    refine .bind (Task.ofExcept_commutes _) fun close => .reads (fun _ => rfl) fun m' => ?_
    exact .bind (.update fun _ => rfl) fun _ => Task.define_commutes _ _
  | move =>
    refine .bind Task.pop_commutes fun code => ?_
    split
    · exact Task.ask_commutes _
    · exact .pure ()
  | go direction => exact Task.ask_commutes _
  | look =>
    refine .bind Task.pop_commutes fun code => ?_
    split
    · exact .pure ()
    · exact .pure ()
    · exact inspect_commutes _

end Builtin

/-! ## Steps -/

/-- The machine with earlier events in its journal. -/
def Machine.following (earlier : List Event) (m : Machine σ) : Machine σ :=
  { m with memory := m.memory.following earlier }

namespace Run

variable {earlier : List Event}

theorem within_commutes {task : Task σ α} (h : Commutes (Memory.following earlier) task) :
    Commutes (Machine.following earlier) (within task) := by
  intro m
  have hmemory : (m.following earlier).memory = m.memory.following earlier := rfl
  simp only [within, hmemory, h m.memory]
  cases task m.memory <;> rfl

theorem emit_commutes (event : Event) :
    Commutes (Machine.following earlier) (emit event : Run σ Unit) :=
  within_commutes (.update fun _ => rfl)

theorem trace_commutes (message : Message) :
    Commutes (Machine.following earlier) (trace message : Run σ Unit) := by
  refine .reads (fun _ => rfl) fun m => ?_
  split
  · exact emit_commutes _
  · exact .pure ()

theorem attempt_commutes {run : Run σ α} (h : Commutes (Machine.following earlier) run) :
    Commutes (Machine.following earlier) (attempt run) := by
  intro m
  simp only [attempt, h m]
  cases run m <;> rfl

theorem fire_commutes (transition : Transition) :
    Commutes (Machine.following earlier) (fire transition : Run σ Unit) := by
  intro m
  have hphase : (m.following earlier).phase = m.phase := rfl
  simp only [fire, hphase]
  cases m.phase.next? transition <;> rfl

end Run

theorem Machine.load_following (earlier : List Event) (m : Machine σ) (terms : List String)
    (stack : List Int) :
    (m.following earlier).load terms stack = (m.load terms stack).following earlier := by
  cases terms <;> rfl

section Steps

variable {earlier : List Event} {again : Run σ Progress}

/-- No script reads the journal, if the nested steps do not. -/
theorem Script.perform_commutes (hagain : Commutes (Machine.following earlier) again)
    (script : Script) : Commutes (Machine.following earlier) (script.perform again) := by
  induction script with
  | done => exact .pure ()
  | raise raised => exact .throw _
  | push values next ih => exact .bind (.update fun _ => rfl) fun _ => ih
  | pop next ih => exact .bind (Run.within_commutes Task.pop_commutes) ih
  | splice terms next ih =>
    exact .bind (Run.within_commutes (.update fun _ => rfl)) fun _ => ih
  | take name next ih => exact .bind (Run.within_commutes (Task.nextTerm_commutes _)) ih
  | define name body next ih =>
    exact .bind (Run.within_commutes (Task.define_commutes _ _)) fun _ => ih
  | forget next ih => exact .bind (Run.within_commutes (.update fun _ => rfl)) fun _ => ih
  | load terms stack next ih =>
    exact .bind (.update fun m => m.load_following earlier terms stack) fun _ => ih
  | step next ih => exact .bind hagain ih
  | write note next ih => exact .bind (Run.emit_commutes _) fun _ => ih
  | observe next ih => exact .reads (fun _ => rfl) fun m => ih m.sight

theorem Entry.perform_commutes [World σ] (hagain : Commutes (Machine.following earlier) again)
    (entry : Entry) : Commutes (Machine.following earlier) (entry.perform again) := by
  cases entry with
  | definition d =>
    simp only [Entry.perform]
    exact Run.within_commutes (.update fun _ => rfl)
  | operation o =>
    simp only [Entry.perform]
    cases o.effect with
    | builtin builtin => exact Run.within_commutes builtin.perform_commutes
    | hosted script => exact script.perform_commutes hagain

namespace Machine

theorem conclude_commutes [World σ] :
    Commutes (following earlier) (conclude : Run σ Unit) := by
  refine .reads (fun _ => rfl) fun m => ?_
  refine .bind (Run.within_commutes (Task.ask_commutes _)) fun _ => ?_
  refine .bind (.update fun _ => rfl) fun _ => .reads (fun _ => rfl) fun m' => ?_
  refine .bind (Run.within_commutes (Task.ask_commutes _)) fun _ => ?_
  refine .reads (fun _ => rfl) fun m'' => ?_
  split
  · exact .throw _
  · exact .pure ()

theorem dispatch_commutes [World σ] (hagain : Commutes (following earlier) again) (name : String)
    (rest : List String) : Commutes (following earlier) (dispatch again name rest) := by
  refine .reads (fun _ => rfl) fun m => .bind (Run.trace_commutes _) fun _ => ?_
  refine .bind (Run.trace_commutes _) fun _ => ?_
  split
  · exact .throw _
  · split
    · refine .bind (.update fun _ => rfl) fun _ => .bind (Run.trace_commutes _) fun _ => ?_
      refine .bind (Entry.perform_commutes hagain _) fun _ => ?_
      exact .bind conclude_commutes fun _ => .pure _
    · exact .throw _

theorem failWith_commutes (fault : Fault) :
    Commutes (following earlier) (failWith fault : Run σ Progress) := by
  refine .bind (.update fun _ => rfl) fun _ => .bind (Run.fire_commutes _) fun _ => ?_
  exact .reads (fun _ => rfl) fun m => .bind (Run.emit_commutes _) fun _ => .pure _

theorem executeNext_commutes [World σ] (hagain : Commutes (following earlier) again) :
    Commutes (following earlier) (executeNext again) := by
  refine .reads (fun _ => rfl) fun m => ?_
  split
  · refine .bind (Run.fire_commutes _) fun _ => .reads (fun _ => rfl) fun m' => ?_
    exact .bind (Run.emit_commutes _) fun _ => .pure _
  · refine .bind (Run.attempt_commutes (dispatch_commutes hagain _ _)) fun result => ?_
    split
    · split
      · exact .bind (Run.fire_commutes _) fun _ => .pure _
      · exact .pure _
    · exact failWith_commutes _
    · exact failWith_commutes _
    · exact .throw _

theorem stepWith_commutes [World σ] (hagain : Commutes (following earlier) again) :
    Commutes (following earlier) (stepWith again) := by
  refine .reads (fun _ => rfl) fun m => ?_
  split
  · exact .pure _
  · exact .pure _
  · exact .bind (Run.fire_commutes _) fun _ => executeNext_commutes hagain
  · exact executeNext_commutes hagain

/-- A step does not notice what was entered before it, whatever the scripts within it do. -/
theorem stepAt_commutes [World σ] (depth : Nat) :
    Commutes (following earlier) (stepAt depth : Run σ Progress) := by
  induction depth with
  | zero => exact .throw _
  | succ depth ih => exact stepWith_commutes ih

/-! ## Steps on another journal -/

/-- The machine with another journal. -/
def rejournal (journal : List Event) (m : Machine σ) : Machine σ :=
  { m with memory := { m.memory with journal := journal } }

theorem outcome_rejournal (journal : List Event) (m : Machine σ) :
    outcome (m.rejournal journal) = mapState (rejournal journal) (outcome m) := by
  have herror : (m.rejournal journal).error = m.error := rfl
  unfold outcome
  rw [bind_apply_ok (get_apply _), bind_apply_ok (get_apply m), herror]
  cases m.error <;> rfl

/-- A step enters the same events whatever journal it finds, and does the same. -/
theorem step_rejournal [World σ] (m : Machine σ) :
    ∃ added, (stateOf (step m)).memory.journal = added ++ m.memory.journal ∧
      ∀ journal, step (m.rejournal journal) = mapState (rejournal (added ++ journal)) (step m) := by
  have hfollowing : ∀ journal, step (m.rejournal journal) =
      mapState (following journal) (step (m.rejournal [])) :=
    fun journal => stepAt_commutes nestingLimit (m.rejournal [])
  have hown : step m = mapState (following m.memory.journal) (step (m.rejournal [])) :=
    hfollowing m.memory.journal
  rw [hown]
  refine ⟨(stateOf (step (m.rejournal []))).memory.journal, ?_, fun journal => ?_⟩
  · cases step (m.rejournal []) <;> rfl
  · rw [hfollowing journal]
    cases step (m.rejournal []) <;> rfl

end Machine

end Steps

end StackRover
