import StackRover.Proofs.Runs
import StackRover.Proofs.Structured
import StackRover.World.Plane

/-!
# Machines execute structured programs

A machine that executes the terms of a structured program does what the evaluator does with the
program itself, event by event and whatever terms follow: it ends before those terms in the scene
that the evaluator ends in, or the step after as many events raises what the evaluator raises.

* `Scene.On`: a scene that is set in the memory of a machine.
* `Tracks`: what an outcome of the evaluator says about the steps of a machine.
* `evalWith_tracked`: by induction on the program, for any evaluation of calls that is tracked.
* `stepTimes_eval`: the evaluator, in terms of calls of `step`.
-/

namespace StackRover

/-! ## Scenes in a memory -/

/-- The scene is set in the memory, and the terms are pending. -/
structure Scene.On {σ : Type} (s : Scene σ) (terms : List String) (m : Memory σ) : Prop where
  stack : m.stack = s.stack
  pending : m.pending = terms
  definitions : m.definitions = s.table.flatten
  dice : m.dice = s.dice
  world : m.world = s.world
  shown : m.shown = s.shown

namespace Scene

variable {σ : Type} {s : Scene σ} {terms : List String} {m : Memory σ}

theorem On.extends (h : s.On terms m) : s.memory.Extends [] terms m := by
  have hshown : s.memory.shown = s.shown := by
    rw [← h.shown]
    simp only [Memory.shown, memory, ← h.shown, List.filter_filter, Bool.and_self]
  refine ⟨?_, h.pending, h.definitions, h.dice, h.world, h.shown.trans hshown.symm⟩
  rw [h.stack]
  exact (List.append_nil s.stack).symm

/-- A memory that extends what an operation has left of the scene. -/
theorem withMemory_on {left : Memory σ} (h : left.Extends [] terms m) (hpending : left.pending = [])
    (hdefinitions : left.definitions = s.table.flatten) : (s.withMemory left).On terms m := by
  refine ⟨?_, ?_, ?_, h.dice, h.world, h.shown⟩
  · rw [h.stack]
    exact List.append_nil left.stack
  · rw [h.pending, hpending]
    rfl
  · rw [h.definitions]
    exact hdefinitions

end Scene

namespace Machine

variable {σ : Type} {m : Machine σ} {s : Scene σ}

/-- The run is live, all built-in operations are active and no others are. -/
structure Ready (m : Machine σ) : Prop where
  unhosted : m.Unhosted
  active : ∀ builtin : Builtin, m.operations.contains builtin.name = true
  live : m.phase.isFinal = false

theorem Ready.of_walk [World σ] (hq : QuietHooks σ) {n : Nat} {m' : Machine σ} (h : m.Ready)
    (hwalk : Walk n m m') : m'.Ready := by
  have hsame := hwalk.sameSetup h.unhosted
  refine ⟨hsame.unhosted h.unhosted, ?_, (hwalk.live hq h.unhosted h.live).1⟩
  intro builtin
  rw [hsame.operations]
  exact h.active builtin

theorem on_looked {terms : List String} (h : s.On terms m.memory) : s.On terms m.looked := by
  refine ⟨h.stack, h.pending, h.definitions, h.dice, h.world, ?_⟩
  rw [shown_looked]
  exact h.shown

theorem on_taken {name : String} {rest : List String} (h : s.On (name :: rest) m.memory) :
    s.On rest (m.taken name rest) := by
  refine ⟨h.stack, rfl, h.definitions, h.dice, h.world, ?_⟩
  rw [shown_taken]
  exact h.shown

/-! ## What the outcome of an evaluation says about a machine -/

/-- The machine goes the way of the outcome, as far as its limit allows: it walks as many steps as
there are events, and then the scene is set in its memory before the terms, or its next step raises
the same. -/
def Tracks [World σ] (m : Machine σ) (terms : List String) : Outcome σ → Prop
  | .ended n s =>
    ((m.steps + n : Nat) : Int) ≤ m.maxSteps → ∃ m', Walk n m m' ∧ s.On terms m'.memory
  | .raised n raised s =>
    ((m.steps + n : Nat) : Int) ≤ m.maxSteps → ∃ m' memory left, Walk n m m' ∧
      s.On left memory ∧ step m' = settle raised { m' with memory := memory, phase := .running }
  | .unfinished => True

namespace Tracks

variable [World σ] {terms : List String} {n : Nat} {o : Outcome σ}

/-- A walk before an outcome. -/
theorem later (hq : QuietHooks σ) (hm : m.Unhosted) {m' : Machine σ} (hwalk : Walk n m m')
    (h : Tracks m' terms o) : Tracks m terms (o.later n) := by
  have hsteps := hwalk.steps_eq hq hm
  have hmax := (hwalk.sameSetup hm).maxSteps
  cases o with
  | ended k s =>
    intro hroom
    obtain ⟨last, hlast, hon⟩ := h (by rw [hsteps, hmax]; omega)
    exact ⟨last, hwalk.trans hlast, hon⟩
  | raised k raised s =>
    intro hroom
    obtain ⟨last, memory, left, hlast, hon⟩ := h (by rw [hsteps, hmax]; omega)
    exact ⟨last, memory, left, hwalk.trans hlast, hon⟩
  | unfinished => trivial

/-- An outcome that takes more steps than the limit allows says nothing. -/
theorem of_room (h : ((m.steps + n : Nat) : Int) ≤ m.maxSteps → Tracks m terms (o.later n)) :
    Tracks m terms (o.later n) := by
  cases o with
  | ended k s =>
    intro hroom
    exact h (by omega) hroom
  | raised k raised s =>
    intro hroom
    exact h (by omega) hroom
  | unfinished => trivial

/-- The first event of an outcome is a term that raises nothing. -/
theorem of_effect (hq : QuietHooks σ) (hm : m.Ready) {name : String} {rest : List String}
    (hpending : m.memory.pending = name :: rest) {category : Category} {memory : Memory σ}
    (heffect : m.effectOf name rest = .ok category memory)
    (hnext : ∀ next : Machine σ, next.Ready → next.memory = memory → Tracks next terms o) :
    Tracks m terms (o.later 1) := by
  apply of_room
  intro hroom
  have hwalk := walk_of_effect hq hm.unhosted hm.live hpending heffect hroom
  exact later hq hm.unhosted hwalk (hnext _ (hm.of_walk hq hwalk) rfl)

/-- A term that raises something. -/
theorem of_raises (hq : QuietHooks σ) (hm : m.Ready) {name : String} {rest left : List String}
    (hpending : m.memory.pending = name :: rest) {raised : Raised} {memory : Memory σ}
    (heffect : m.effectOf name rest = .error raised memory) (hon : s.On left memory) :
    Tracks m terms (.raised 0 raised s) := by
  intro _
  refine ⟨m, memory, left, .refl m, hon, ?_⟩
  rw [step_quiet hq hm.unhosted hm.live hpending, heffect]

theorem here (h : s.On terms m.memory) : Tracks m terms (.ended 0 s) :=
  fun _ => ⟨m, .refl m, h⟩

/-- One evaluation after the other. -/
theorem andThen (hq : QuietHooks σ) (hm : m.Ready) {between : List String}
    {next : Scene σ → Outcome σ} (h : Tracks m between o)
    (hnext : ∀ (s' : Scene σ) (m' : Machine σ), m'.Ready → s'.On between m'.memory →
      Tracks m' terms (next s')) : Tracks m terms (o.andThen next) := by
  cases o with
  | ended n s' =>
    apply of_room
    intro hroom
    obtain ⟨m', hwalk, hon⟩ := h hroom
    exact later hq hm.unhosted hwalk (hnext s' m' (hm.of_walk hq hwalk) hon)
  | raised n raised s' => exact h
  | unfinished => trivial

end Tracks

/-- Machines go the way of the evaluation of every program, whatever terms follow it. -/
def Tracked [World σ] (call : Phrase → Scene σ → Outcome σ) : Prop :=
  ∀ (body : Phrase) (terms : List String) {s : Scene σ} {m : Machine σ}, m.Ready →
    s.On (body.flatten ++ terms) m.memory → Tracks m terms (call body s)

/-! ## What terms stand for -/

theorem find?_reserved (table : Lexicon Routine) {name : String} (h : name ∈ reserved) :
    table.find? name = none := by
  cases hfind : table.find? name with
  | none => rfl
  | some routine =>
    have hname : routine.name.text = name := Lexicon.name_of_find? hfind
    rw [← hname] at h
    exact absurd h routine.name.free

theorem meaning?_on (hm : m.Ready) {terms : List String} (h : s.On terms m.memory)
    (name : String) :
    m.meaning? name =
      match s.table.find? name with
      | some routine => some (.body routine.body.flatten)
      | none => (Builtin.ofName? name).map .builtin := by
  unfold meaning?
  rw [h.definitions, Lexicon.find?_flatten]
  cases s.table.find? name with
  | some routine => rfl
  | none =>
    simp only [Option.map_none]
    cases hname : Builtin.ofName? name with
    | none => simp
    | some builtin =>
      have heq := Builtin.name_of_ofName? hname
      have hactive := hm.active builtin
      rw [heq] at hactive
      rw [if_pos hactive]

theorem meaning?_reserved (hm : m.Ready) {terms : List String} (h : s.On terms m.memory)
    (builtin : Builtin) (hreserved : builtin.name ∈ reserved) :
    m.meaning? builtin.name = some (.builtin builtin) := by
  rw [meaning?_on hm h, find?_reserved s.table hreserved]
  simp

theorem readsAhead_of_not_reserved {builtin : Builtin} (h : builtin.name ∉ reserved) :
    builtin.readsAhead = false := by
  cases builtin with
  | push | branch | define => exact absurd (by decide) h
  | _ => rfl

theorem effectOf_builtin [World σ] {name : String} {builtin : Builtin}
    (hmeaning : m.meaning? name = some (.builtin builtin))
    (hdepth : builtin.minDepth ≤ m.memory.stack.length) (rest : List String) :
    m.effectOf name rest =
      match builtin.perform (m.taken name rest) with
      | .ok _ memory => .ok builtin.category memory
      | .error raised memory => .error raised memory := by
  unfold effectOf
  rw [hmeaning]
  exact if_pos hdepth

theorem effectOf_shallow [World σ] {name : String} {builtin : Builtin}
    (hmeaning : m.meaning? name = some (.builtin builtin))
    (hdepth : ¬ builtin.minDepth ≤ m.memory.stack.length) (rest : List String) :
    m.effectOf name rest =
      .error (Raised.ofFault (.stackUnderflow name builtin.minDepth m.memory.stack.length))
        m.looked := by
  unfold effectOf
  rw [hmeaning]
  exact if_neg hdepth

/-! ## The parts of a program -/

section Parts

variable [World σ] (hq : QuietHooks σ) (hm : m.Ready)

include hq hm

theorem push_tracks {operand : String} {rest : List String}
    (h : s.On ("PUSH" :: operand :: rest) m.memory) : Tracks m rest (s.push operand) := by
  have hmeaning : m.meaning? "PUSH" = some (.builtin .push) :=
    meaning?_reserved hm h .push (by decide)
  have heffect := effectOf_builtin hmeaning (Nat.zero_le _) (operand :: rest)
  have htaken := on_taken h
  simp only [Builtin.perform, Builtin.pushLiteral_cons htaken.pending] at heffect
  unfold Scene.push
  cases hdigit : Builtin.digit operand with
  | ok value =>
    simp only [hdigit] at heffect
    refine Tracks.of_effect (o := .ended 0 { s with stack := value :: s.stack }) hq hm h.pending
      heffect ?_
    intro next _ hnext
    apply Tracks.here
    rw [hnext]
    refine ⟨?_, rfl, htaken.definitions, htaken.dice, htaken.world, htaken.shown⟩
    simp only [htaken.stack]
  | error raised =>
    simp only [hdigit] at heffect
    apply Tracks.of_raises hq hm h.pending heffect
    exact ⟨htaken.stack, rfl, htaken.definitions, htaken.dice, htaken.world, htaken.shown⟩

theorem enact_tracks {builtin : Builtin} {rest : List String}
    (h : s.On (builtin.name :: rest) m.memory)
    (hmeaning : m.meaning? builtin.name = some (.builtin builtin))
    (hreads : builtin.readsAhead = false) : Tracks m rest (s.enact builtin) := by
  have hstack : m.memory.stack.length = s.stack.length := by rw [h.stack]
  unfold Scene.enact
  by_cases hdepth : builtin.minDepth ≤ s.stack.length
  · rw [if_pos hdepth]
    have heffect := effectOf_builtin hmeaning (by rw [hstack]; exact hdepth) rest
    have hfollows : Follows (Memory.Extends [] rest)
        (fun _ => builtin.readsAhead = true → rest = [])
        (builtin.perform s.memory) (builtin.perform (m.taken builtin.name rest)) :=
      Builtin.perform_extends (on_taken h).extends hdepth
    have hkeeps := Builtin.perform_keeps (raisesOnly_any σ) (fun _ _ => trivial) hreads
    have hpending := hkeeps.pending s.memory
    have hdefinitions := hkeeps.definitions s.memory
    cases hperform : builtin.perform s.memory with
    | ok _ left =>
      rw [hperform] at hfollows hpending hdefinitions
      obtain ⟨memory, hmemory, hextends⟩ := hfollows
      rw [hmemory] at heffect
      refine Tracks.of_effect (o := .ended 0 (s.withMemory left)) hq hm h.pending heffect ?_
      intro next _ hnext
      apply Tracks.here
      rw [hnext]
      exact Scene.withMemory_on hextends hpending hdefinitions
    | error raised left =>
      rw [hperform] at hfollows hpending hdefinitions
      have hbinding : builtin.readsAhead = true → rest = [] := by
        intro htrue
        rw [hreads] at htrue
        cases htrue
      obtain ⟨memory, hmemory, hextends⟩ := hfollows hbinding
      rw [hmemory] at heffect
      exact Tracks.of_raises hq hm h.pending heffect
        (Scene.withMemory_on hextends hpending hdefinitions)
  · rw [if_neg hdepth]
    have heffect := effectOf_shallow hmeaning (by rw [hstack]; exact hdepth) rest
    rw [hstack] at heffect
    exact Tracks.of_raises hq hm h.pending heffect (on_looked h)

theorem execute_tracks {call : Phrase → Scene σ → Outcome σ} (hcall : Tracked call)
    {w : Word} {rest : List String} (h : s.On (w.text :: rest) m.memory) :
    Tracks m rest (s.execute call w.text) := by
  have hmeaning := meaning?_on hm h w.text
  unfold Scene.execute
  cases hfind : s.table.find? w.text with
  | some routine =>
    rw [hfind] at hmeaning
    have htaken := on_taken h
    have heffect : m.effectOf w.text rest = .ok .custom
        { m.taken w.text rest with pending := routine.body.flatten ++ rest } := by
      unfold effectOf
      rw [hmeaning]
      rfl
    refine Tracks.of_effect hq hm h.pending heffect ?_
    intro next hready hnext
    apply hcall routine.body rest hready
    rw [hnext]
    exact ⟨htaken.stack, rfl, htaken.definitions, htaken.dice, htaken.world, htaken.shown⟩
  | none =>
    rw [hfind] at hmeaning
    simp only at hmeaning ⊢
    cases hname : Builtin.ofName? w.text with
    | some builtin =>
      have heq := Builtin.name_of_ofName? hname
      have hfree : builtin.name ∉ reserved := by
        rw [heq]
        exact w.free
      rw [hname, ← heq] at hmeaning
      rw [← heq] at h
      exact enact_tracks hq hm h hmeaning (readsAhead_of_not_reserved hfree)
    | none =>
      rw [hname] at hmeaning
      have heffect : m.effectOf w.text rest =
          .error (Raised.ofFault (.unknownInstruction w.text)) m.looked := by
        unfold effectOf
        rw [hmeaning]
        rfl
      exact Tracks.of_raises hq hm h.pending heffect (on_looked h)

/-- A conditional whose block has the given arms. -/
theorem test_tracks {terms rest between : List String} {arms : Block.Arms}
    {yes no : Scene σ → Outcome σ} (h : s.On ("IF" :: terms) m.memory)
    (hsplit : Block.Arms.split terms = .ok arms) (hrest : terms.drop (arms.close + 1) = rest)
    (hyes : ∀ {s' : Scene σ} {m' : Machine σ}, m'.Ready → s'.On (arms.onTrue ++ rest) m'.memory →
      Tracks m' between (yes s'))
    (hno : ∀ {s' : Scene σ} {m' : Machine σ}, m'.Ready → s'.On (arms.onFalse ++ rest) m'.memory →
      Tracks m' between (no s')) :
    Tracks m between
      (s.test fun condition s' => if condition ≠ 0 then yes s' else no s') := by
  have hmeaning : m.meaning? "IF" = some (.builtin .branch) :=
    meaning?_reserved hm h .branch (by decide)
  have hstack := h.stack
  unfold Scene.test
  cases hs : s.stack with
  | nil =>
    rw [hs] at hstack
    have heffect := effectOf_shallow hmeaning (by rw [hstack]; decide) terms
    rw [hstack] at heffect
    exact Tracks.of_raises hq hm h.pending heffect (on_looked h)
  | cons condition stack =>
    rw [hs] at hstack
    have htaken := on_taken h
    have heffect := effectOf_builtin hmeaning (by rw [hstack]; exact Nat.succ_pos _) terms
    rw [← htaken.pending] at hsplit
    simp only [Builtin.perform, Builtin.choose_cons hsplit hstack, htaken.pending, hrest] at heffect
    refine Tracks.of_effect hq hm h.pending heffect ?_
    intro next hready hnext
    have hon : { s with stack := stack }.On
        ((if condition ≠ 0 then arms.onTrue else arms.onFalse) ++ rest) next.memory := by
      rw [hnext]
      exact ⟨rfl, rfl, htaken.definitions, htaken.dice, htaken.world, htaken.shown⟩
    show Tracks next between (if condition ≠ 0 then yes _ else no _)
    by_cases hcondition : condition ≠ 0
    · rw [if_pos hcondition] at hon ⊢
      exact hyes hready hon
    · rw [if_neg hcondition] at hon ⊢
      exact hno hready hon

theorem bind_tracks {name : Word} {body : Phrase} {rest : List String}
    (h : s.On ("DEF" :: name.text :: (body.flatten ++ "END" :: rest)) m.memory) :
    Tracks m rest (s.bind ⟨name, body⟩) := by
  have hmeaning : m.meaning? "DEF" = some (.builtin .define) :=
    meaning?_reserved hm h .define (by decide)
  have htaken := on_taken h
  have heffect := effectOf_builtin hmeaning (Nat.zero_le _)
    (name.text :: (body.flatten ++ "END" :: rest))
  have hclose := Block.closing_of_bracketed body.bracketed_flatten rest
  simp only [Builtin.perform, Builtin.bind_cons htaken.pending hclose] at heffect
  refine Tracks.of_effect hq hm h.pending heffect (o := .ended 0 _) ?_
  intro next _ hnext
  apply Tracks.here
  rw [hnext]
  refine ⟨htaken.stack, Block.drop_block _ _, ?_, htaken.dice, htaken.world, ?_⟩
  · simp only [htaken.definitions, List.take_left]
    exact (Lexicon.flatten_insert s.table ⟨name, body⟩).symm
  · exact (Builtin.shown_bindingJournal _ _).trans htaken.shown

end Parts

/-! ## Whole programs -/

/-- If machines go the way of every call, then they go the way of every program. -/
theorem evalWith_tracked [World σ] (hq : QuietHooks σ) {call : Phrase → Scene σ → Outcome σ}
    (hcall : Tracked call) : Tracked (Phrase.evalWith call) := by
  -- The induction is for all terms that may follow: an arm is followed by the rest of its program.
  intro phrase
  induction phrase with
  | done =>
    intro terms s m hm h
    exact Tracks.here h
  | word w rest ih =>
    intro terms s m hm h
    apply Tracks.andThen hq hm (execute_tracks hq hm hcall h)
    intro s' m' hm' h'
    exact ih terms hm' h'
  | push operand rest ih =>
    intro terms s m hm h
    apply Tracks.andThen hq hm (push_tracks hq hm h)
    intro s' m' hm' h'
    exact ih terms hm' h'
  | branch arm rest iharm ih =>
    intro terms s m hm h
    have hterms : (Phrase.branch arm rest).flatten ++ terms =
        "IF" :: (arm.flatten ++ "END" :: (rest.flatten ++ terms)) := by
      simp [Phrase.flatten]
    rw [hterms] at h
    have hsplit := Block.Arms.split_of_bracketed arm.bracketed_flatten (rest.flatten ++ terms)
    refine Tracks.andThen hq hm ?_ fun s' m' hm' h' => ih terms hm' h'
    apply test_tracks hq hm h hsplit (Block.drop_block _ _)
    · intro s' m' hm' h'
      exact iharm _ hm' h'
    · intro s' m' hm' h'
      exact Tracks.here h'
  | branchElse onTrue onFalse rest ihtrue ihfalse ih =>
    intro terms s m hm h
    have hterms : (Phrase.branchElse onTrue onFalse rest).flatten ++ terms =
        "IF" :: (onTrue.flatten ++ "ELSE" ::
          (onFalse.flatten ++ "END" :: (rest.flatten ++ terms))) := by
      simp [Phrase.flatten]
    rw [hterms] at h
    have hsplit := Block.Arms.split_of_bracketed_else onTrue.bracketed_flatten
      onFalse.bracketed_flatten (rest.flatten ++ terms)
    refine Tracks.andThen hq hm ?_ fun s' m' hm' h' => ih terms hm' h'
    apply test_tracks hq hm h hsplit (Block.drop_block_else _ _ _)
    · intro s' m' hm' h'
      exact ihtrue _ hm' h'
    · intro s' m' hm' h'
      exact ihfalse _ hm' h'
  | define name body rest ihbody ih =>
    intro terms s m hm h
    have hterms : (Phrase.define name body rest).flatten ++ terms =
        "DEF" :: name.text :: (body.flatten ++ "END" :: (rest.flatten ++ terms)) := by
      simp [Phrase.flatten]
    rw [hterms] at h
    apply Tracks.andThen hq hm (bind_tracks hq hm h)
    intro s' m' hm' h'
    exact ih terms hm' h'

theorem eval_tracked [World σ] (hq : QuietHooks σ) (depth : Nat) :
    Tracked (Phrase.eval depth : Phrase → Scene σ → Outcome σ) := by
  induction depth with
  | zero => exact evalWith_tracked hq fun _ _ _ _ _ _ => trivial
  | succ depth ih => exact evalWith_tracked hq ih

/-- **Machines implement the evaluator of structured programs.** If the evaluation of a program ends
after `n` events, then `n` steps of a machine that has the terms of the program and any others
pending lead to the same scene before the others, as long as the limit allows for them. If it raises
something after `n` events, then the step after `n` steps raises the same in the same scene. -/
theorem stepTimes_eval [World σ] (hq : QuietHooks σ) (hm : m.Ready) (depth : Nat)
    (phrase : Phrase) (terms : List String) (h : s.On (phrase.flatten ++ terms) m.memory) :
    (∀ n s', phrase.eval depth s = .ended n s' → ((m.steps + n : Nat) : Int) ≤ m.maxSteps →
      ∃ m', stepTimes n m = .ok () m' ∧ s'.On terms m'.memory ∧ m'.steps = m.steps + n ∧
        m'.phase.isFinal = false ∧ m'.error = m.error) ∧
    (∀ n raised s', phrase.eval depth s = .raised n raised s' →
      ((m.steps + n : Nat) : Int) ≤ m.maxSteps →
      ∃ m' memory left, stepTimes n m = .ok () m' ∧ m'.steps = m.steps + n ∧
        s'.On left memory ∧
        step m' = settle raised { m' with memory := memory, phase := .running }) := by
  have htracks := eval_tracked hq depth phrase terms hm h
  refine ⟨?_, ?_⟩
  · intro n s' heval hroom
    rw [heval] at htracks
    obtain ⟨m', hwalk, hon⟩ := htracks hroom
    obtain ⟨hlive, herror⟩ := hwalk.live hq hm.unhosted hm.live
    exact ⟨m', hwalk.stepTimes_eq, hon, hwalk.steps_eq hq hm.unhosted, hlive, herror⟩
  · intro n raised s' heval hroom
    rw [heval] at htracks
    obtain ⟨m', memory, left, hwalk, hon, hstep⟩ := htracks hroom
    exact ⟨m', memory, left, hwalk.stepTimes_eq, hwalk.steps_eq hq hm.unhosted, hon, hstep⟩

/-- A program that defines a word, calls it, and calls it again from an arm of a conditional. -/
def quadruple : Phrase :=
  .define ⟨"TWICE", by decide⟩
    (.word ⟨"DUP", by decide⟩ (.word ⟨"ADD", by decide⟩ .done))
    (.push ⟨"3", by decide⟩ (.word ⟨"TWICE", by decide⟩ (.word ⟨"DUP", by decide⟩
      (.branchElse (.word ⟨"TWICE", by decide⟩ .done) (.word ⟨"POP", by decide⟩ .done) .done))))

/-- Ten events and a limit of ten steps. -/
theorem stepTimes_eval_quadruple :
    (quadruple.eval 1 (⟨[], .empty, .cycling #[], {}, []⟩ : Scene Plane)).result? =
      some (10, [12]) ∧
    ∃ m', stepTimes 10 ((plain ({} : Plane) 10).load (quadruple.flatten ++ ["UP"]) []) = .ok () m' ∧
      m'.memory.pending = ["UP"] ∧ m'.memory.stack = [12] := by
  have hresult : (quadruple.eval 1
      (⟨[], .empty, .cycling #[], {}, []⟩ : Scene Plane)).result? = some (10, [12]) := by
    decide +kernel
  refine ⟨hresult, ?_⟩
  have hready : ((plain ({} : Plane) 10).load (quadruple.flatten ++ ["UP"]) []).Ready := by
    refine ⟨catalogue_unhosted rfl, ?_, rfl⟩
    intro builtin
    exact (Lexicon.find?_isSome_iff _ _).mpr
      (List.mem_map.mpr ⟨_, List.mem_map.mpr ⟨builtin, builtin.mem_all, rfl⟩, rfl⟩)
  have hon : (⟨[], .empty, .cycling #[], {}, []⟩ : Scene Plane).On (quadruple.flatten ++ ["UP"])
      ((plain ({} : Plane) 10).load (quadruple.flatten ++ ["UP"]) []).memory :=
    ⟨rfl, rfl, rfl, rfl, rfl, rfl⟩
  cases heval : quadruple.eval 1 (⟨[], .empty, .cycling #[], {}, []⟩ : Scene Plane) with
  | ended n s' =>
    rw [heval] at hresult
    simp only [Outcome.result?, Option.some.injEq, Prod.mk.injEq] at hresult
    obtain ⟨rfl, hstack⟩ := hresult
    obtain ⟨m', hstepped, hreached, -⟩ :=
      (stepTimes_eval quietHooks_plane hready 1 quadruple ["UP"] hon).1 10 s' heval (by decide)
    exact ⟨m', hstepped, hreached.pending, hreached.stack.trans hstack⟩
  | raised n raised s' =>
    rw [heval] at hresult
    cases hresult
  | unfinished =>
    rw [heval] at hresult
    cases hresult

end Machine

end StackRover
