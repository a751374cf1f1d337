import StackRover.Machine.Reference
import StackRover.Proofs.Brackets
import StackRover.Proofs.Conclusion
import StackRover.Proofs.HostCalls
import StackRover.Proofs.ProgramText
import StackRover.Proofs.StepLimit
import StackRover.World.Recorder

/-!
# Definitions written down and read back

The reference shows a definition as the program text that makes it. Whatever programs were run
before, that text restores the definition: all terms that a machine ever holds come from texts, so
blanks separate them and no comment starts within them, and a body was cut out where its own blocks
were closed, so the `END` behind it is found again.

* `Definition.Legible`: a definition that can be written down.
* `step_legible`, `ReachedByTexts.legible`: programs make no others.
* `Definition.Legible.tokenize_text`: the text of a definition is read as its terms.
* `execute_describe`: running the text makes the definition, and does nothing else.
-/

namespace StackRover

open Program (IsTerm)

variable {σ τ : Type}

namespace Block

/-- The terms of a block do not depend on what follows its `END`. -/
theorem closing_split {terms : List String} {close : Nat} (h : closing terms = .ok close) :
    ∃ body tail, terms = body ++ "END" :: tail ∧ close = body.length ∧
      ∀ rest, closing (body ++ "END" :: rest) = .ok body.length := by
  obtain ⟨body, tail, rfl, hbody, rfl⟩ := closing_eq_ok_iff.mp h
  exact ⟨body, tail, rfl, rfl, closing_of_balanced hbody⟩

/-- The arms of an `IF` are made of the terms that follow it. -/
theorem Arms.mem_of_split {terms : List String} {arms : Arms} (h : Arms.split terms = .ok arms)
    {term : String} (hterm : term ∈ arms.onTrue ∨ term ∈ arms.onFalse) : term ∈ terms := by
  unfold Arms.split at h
  split at h
  · cases h
  · cases h
    rcases hterm with htrue | hfalse
    · exact List.mem_of_mem_take htrue
    · cases hfalse
  · cases h
    rcases hterm with htrue | hfalse
    · exact List.mem_of_mem_take htrue
    · exact List.mem_of_mem_take (List.mem_of_mem_drop hfalse)

end Block

/-! ## Definitions that can be written down -/

/-- The definition can be written down: it is made of terms, and its body closes exactly the blocks
that it opens. -/
structure Definition.Legible (definition : Definition) : Prop where
  name : IsTerm definition.name
  body : ∀ term ∈ definition.body, IsTerm term
  closes : ∀ rest,
    Block.closing (definition.body ++ "END" :: rest) = .ok definition.body.length

/-- The memory holds terms only, and definitions that can be written down. -/
structure Memory.Legible (m : Memory σ) : Prop where
  pending : ∀ term ∈ m.pending, IsTerm term
  definitions : ∀ definition ∈ m.definitions.entries, definition.Legible

namespace Builtin

variable {m : Memory σ}

theorem pushLiteral_legible (h : m.Legible) : (stateOf (pushLiteral m)).Legible := by
  cases hpending : m.pending with
  | nil =>
    rw [pushLiteral_nil hpending]
    exact h
  | cons operand rest =>
    have hrest : ∀ term ∈ rest, IsTerm term := fun term hmem =>
      h.pending term (hpending ▸ List.mem_cons_of_mem operand hmem)
    rw [pushLiteral_cons hpending]
    cases digit operand <;> exact ⟨hrest, h.definitions⟩

theorem choose_legible (h : m.Legible) {condition : Int} {stack : List Int}
    (hstack : m.stack = condition :: stack) : (stateOf (choose m)).Legible := by
  cases hsplit : Block.Arms.split m.pending with
  | error fault =>
    rw [choose_error hsplit]
    exact h
  | ok arms =>
    rw [choose_cons hsplit hstack]
    refine ⟨fun term hterm => h.pending term ?_, h.definitions⟩
    rcases List.mem_append.mp hterm with harm | hrest
    · apply Block.Arms.mem_of_split hsplit
      split at harm
      · exact Or.inl harm
      · exact Or.inr harm
    · exact List.mem_of_mem_drop hrest

/-- A body is cut out where its own blocks are closed. -/
theorem bind_legible (h : m.Legible) : (stateOf (Builtin.bind m)).Legible := by
  cases hpending : m.pending with
  | nil =>
    rw [bind_nil hpending]
    exact h
  | cons name rest =>
    have hterms := h.pending
    rw [hpending, List.forall_mem_cons] at hterms
    cases hclose : Block.closing rest with
    | error fault =>
      rw [bind_error hpending hclose]
      exact ⟨hterms.2, h.definitions⟩
    | ok close =>
      rw [bind_cons hpending hclose]
      obtain ⟨body, tail, rfl, rfl, hcloses⟩ := Block.closing_split hclose
      refine ⟨fun term hterm => hterms.2 term (List.mem_of_mem_drop hterm), ?_⟩
      intro definition hmem
      rcases Lexicon.mem_of_mem_place hmem with rfl | hold
      · rw [List.take_left]
        exact ⟨hterms.1, fun term hterm => hterms.2 term (List.mem_append_left _ hterm), hcloses⟩
      · exact h.definitions definition hold

theorem perform_legible [World σ] {builtin : Builtin} (h : m.Legible)
    (hdepth : builtin.minDepth ≤ m.stack.length) : (stateOf (builtin.perform m)).Legible := by
  cases hreads : builtin.readsAhead with
  | false =>
    have hkeeps := perform_keeps (raisesOnly_any σ) (fun _ _ => trivial) hreads
    refine ⟨?_, ?_⟩
    · rw [hkeeps.pending]
      exact h.pending
    · rw [hkeeps.definitions]
      exact h.definitions
  | true =>
    cases builtin with
    | push => exact pushLiteral_legible h
    | define => exact bind_legible h
    | branch =>
      obtain ⟨condition, stack, hstack⟩ := List.exists_cons_of_length_pos hdepth
      exact choose_legible h hstack
    | _ => cases hreads

end Builtin

namespace Machine

variable {m m' : Machine σ}

theorem effectOf_legible [World σ] (h : m.memory.Legible) {name : String} {rest : List String}
    (hpending : m.memory.pending = name :: rest) : (stateOf (m.effectOf name rest)).Legible := by
  have hlooked : m.looked.Legible := ⟨h.pending, h.definitions⟩
  have hrest : ∀ term ∈ rest, IsTerm term := fun term hmem =>
    h.pending term (hpending ▸ List.mem_cons_of_mem name hmem)
  have htaken : (m.taken name rest).Legible := ⟨hrest, h.definitions⟩
  unfold effectOf
  cases hmeaning : m.meaning? name with
  | none => exact hlooked
  | some meaning =>
    simp only
    split
    · rename_i hdepth
      have htask : (stateOf (meaning.task (m.taken name rest))).Legible := by
        cases meaning with
        | builtin builtin => exact Builtin.perform_legible htaken hdepth
        | body terms =>
          obtain ⟨definition, hmem, rfl⟩ : ∃ definition ∈ m.memory.definitions.entries,
              definition.body = terms := by
            unfold meaning? at hmeaning
            split at hmeaning
            · rename_i definition hfind
              cases hmeaning
              exact ⟨definition, List.mem_of_find?_eq_some hfind, rfl⟩
            · split at hmeaning
              · obtain ⟨builtin, -, hbuiltin⟩ := Option.map_eq_some_iff.mp hmeaning
                cases hbuiltin
              · cases hmeaning
          refine ⟨fun term hterm => ?_, h.definitions⟩
          rcases List.mem_append.mp hterm with hbody | hold
          · exact (h.definitions definition hmem).body term hbody
          · exact hrest term hold
      cases hresult : meaning.task (m.taken name rest) with
      | ok _ memory =>
        rw [hresult] at htask
        exact htask
      | error raised memory =>
        rw [hresult] at htask
        exact htask
    · exact hlooked

theorem settle_legible (raised : Raised) (h : m.memory.Legible) :
    (stateOf (settle raised m)).memory.Legible := by
  unfold settle
  cases raised.ending? with
  | none => exact h
  | some fault => exact ⟨h.pending, h.definitions⟩

/-- A step makes no definition that cannot be written down. -/
theorem step_legible [World σ] (hm : m.Unhosted) (h : m.memory.Legible) :
    (stateOf (step m)).memory.Legible := by
  cases hfinal : m.phase.isFinal with
  | true =>
    rw [step_final hfinal]
    exact h
  | false =>
    cases hpending : m.memory.pending with
    | nil =>
      rw [step_end hfinal hpending]
      exact ⟨h.pending, h.definitions⟩
    | cons name rest =>
      have heffect := effectOf_legible h hpending
      rw [step_term hm hfinal hpending]
      cases hresult : m.effectOf name rest with
      | error raised memory =>
        rw [hresult] at heffect
        exact settle_legible (m := { m with memory := memory, phase := .running }) raised heffect
      | ok category memory =>
        rw [hresult, stateOf_ok] at heffect
        have hnotified := conclude_notified { m with memory := memory, phase := .running }
        have hafter : (stateOf
            (conclude { m with memory := memory, phase := .running })).memory.Legible := by
          refine ⟨?_, ?_⟩
          · rw [hnotified.pending]
            exact heffect.pending
          · rw [hnotified.definitions]
            exact heffect.definitions
        simp only
        cases hconclude : conclude { m with memory := memory, phase := .running } with
        | ok _ after =>
          rw [hconclude] at hafter
          exact hafter
        | error raised after =>
          rw [hconclude] at hafter
          exact settle_legible raised hafter

/-- The second machine was reached from the first by running program texts one after the other, each
on a stack of its own. A run may have ended in any way, and the last one need not be over. -/
inductive ReachedByTexts [World σ] (m : Machine σ) : Machine σ → Prop
  | start : ReachedByTexts m m
  | run {between m' : Machine σ} (h : ReachedByTexts m between) (text : String) (stack : List Int)
      (hreaches : Reaches (between.load (Program.tokenize text) stack) m') : ReachedByTexts m m'

theorem ReachedByTexts.execute [World σ] (h : ReachedByTexts m m') (text : String)
    (stack : List Int) : ReachedByTexts m (stateOf (Machine.execute text stack m')) := by
  refine .run h text stack ?_
  rw [execute_eq]
  exact reaches_run _

/-- All definitions that programs have made can be written down. -/
theorem ReachedByTexts.legible [World σ] (hm : m.Unhosted)
    (hempty : m.memory.definitions = .empty) (h : ReachedByTexts m m') :
    m'.Unhosted ∧ ∀ definition ∈ m'.memory.definitions.entries, definition.Legible := by
  induction h with
  | start =>
    refine ⟨hm, fun definition hmem => ?_⟩
    rw [hempty] at hmem
    cases hmem
  | @run between m' _ text stack hreaches ih =>
    obtain ⟨hbetween, hdefinitions⟩ := ih
    have hload : (between.load (Program.tokenize text) stack).memory.Legible :=
      ⟨fun term hterm => Program.isTerm_of_mem_tokenize hterm, hdefinitions⟩
    have hlast : m'.Unhosted ∧ m'.memory.Legible := by
      refine hreaches.invariant (P := fun machine => machine.Unhosted ∧ machine.memory.Legible) ?_
        ⟨(load_sameSetup between _ stack).unhosted hbetween, hload⟩
      rintro machine ⟨hunhosted, hlegible⟩
      exact ⟨(step_sameSetup hunhosted).unhosted hunhosted, step_legible hunhosted hlegible⟩
    exact ⟨hlast.1, hlast.2.definitions⟩

end Machine

/-! ## The text of a definition -/

/-- The program text that makes a definition. -/
def Definition.text (definition : Definition) : String :=
  "DEF " ++ definition.name ++ " " ++ String.intercalate " " definition.body ++ " END"

theorem Machine.describe_of_find? {m : Machine σ} {name : String} {definition : Definition}
    (h : m.memory.definitions.find? name = some definition) :
    m.describe name = definition.text := by
  have hname : definition.name = name := Lexicon.name_of_find? h
  simp only [describe, resolve, h, Definition.text, hname]

/-- The text of a definition is read as its terms. -/
theorem Definition.Legible.tokenize_text {definition : Definition} (h : definition.Legible) :
    Program.tokenize definition.text =
      "DEF" :: definition.name :: (definition.body ++ ["END"]) := by
  have hlist : definition.text.toList =
      "DEF".toList ++ ' ' :: (definition.name.toList ++
        ' ' :: ((String.intercalate " " definition.body).toList ++ ' ' :: "END".toList)) := by
    simp [Definition.text]
  have hmark : ∀ c ∈ definition.text.toList, Program.isMark c = false := by
    intro c hc
    simp only [hlist, List.mem_append, List.mem_cons] at hc
    have hdef : ∀ c ∈ "DEF".toList, Program.isMark c = false := by
      simp [Program.isMark, Program.commentMark]
    have hend : ∀ c ∈ "END".toList, Program.isMark c = false := by
      simp [Program.isMark, Program.commentMark]
    rcases hc with hc | rfl | hc | rfl | hc | rfl | hc
    · exact hdef c hc
    · rfl
    · exact h.name.not_mark c hc
    · rfl
    · exact Program.not_mark_intercalate h.body c hc
    · rfl
    · exact hend c hc
  have hdef : Text.words "DEF".toList = ["DEF"] := by decide
  have hend : Text.words "END".toList = ["END"] := by decide
  rw [Program.tokenize_eq, Program.terms_code hmark, hlist, Text.words_append_cons rfl,
    Text.words_append_cons rfl, Text.words_append_cons rfl, hdef, hend, h.name.words_eq,
    Program.words_intercalate h.body]
  rfl

/-! ## Running the text -/

theorem Task.ask_of_ok {α : Type} {request : σ → Reply σ α} {m : Memory σ} {value : α}
    (h : (request m.world).result = .ok value) :
    ∃ journal, ask request m =
      .ok value { m with world := (request m.world).world, journal := journal } := by
  unfold ask
  simp only [h]
  exact ⟨_, rfl⟩

namespace Machine

/-- A term whose effect raises nothing makes a step that goes on, if the notifications raise nothing
and the limit allows for it. -/
theorem wrapUp_notified [World τ] (host : Machine τ) (category : Category) (memory : Memory τ)
    (htold : (World.stackChanged memory.stack memory.world).result = .ok ())
    (hcounted : (World.stepped (host.steps + 1)
      (World.stackChanged memory.stack memory.world).world).result = .ok ())
    (hlimit : ((host.steps + 1 : Nat) : Int) ≤ host.maxSteps) :
    ∃ world journal, host.wrapUp (.ok category memory) = .ok category.progress
      { host with
        memory := { memory with world := world, journal := journal }
        steps := host.steps + 1
        phase := category.phase } := by
  obtain ⟨journal, hfirst⟩ := Task.ask_of_ok htold
  obtain ⟨journal', hsecond⟩ := Task.ask_of_ok
    (m := { memory with
      world := (World.stackChanged memory.stack memory.world).world, journal := journal }) hcounted
  have hroom : ¬ host.maxSteps < ((host.steps + 1 : Nat) : Int) := by omega
  simp only [wrapUp, hfirst, hsecond]
  rw [if_neg hroom]
  exact ⟨_, journal', rfl⟩

/-- The step of a `DEF` that finds its name and its block. -/
theorem step_define [World τ] (host : Machine τ) (hlive : host.phase.isFinal = false)
    (hdefine : host.resolve "DEF" = some (.operation Builtin.define.operation))
    (htold : (World.stackChanged host.memory.stack host.memory.world).result = .ok ())
    (hcounted : (World.stepped (host.steps + 1)
      (World.stackChanged host.memory.stack host.memory.world).world).result = .ok ())
    (hlimit : ((host.steps + 1 : Nat) : Int) ≤ host.maxSteps)
    {definition : Definition} (hlegible : definition.Legible)
    (hpending : host.memory.pending = "DEF" :: definition.name :: (definition.body ++ ["END"])) :
    ∃ world journal, step host = .ok .ongoing
      { host with
        memory :=
          { host.memory with
            pending := []
            definitions := host.memory.definitions.insert definition
            world := world
            journal := journal }
        steps := host.steps + 1
        phase := .running } := by
  let taken := { host with phase := .running }.taken "DEF"
    (definition.name :: (definition.body ++ ["END"]))
  let bound : Memory τ :=
    { taken with
      pending := []
      definitions := host.memory.definitions.insert definition
      journal := Builtin.bindingJournal taken definition.name }
  have hbind : Builtin.bind taken = .ok () bound := by
    have hcons := Builtin.bind_cons (m := taken) rfl (hlegible.closes [])
    rw [Block.drop_block, List.take_left] at hcons
    exact hcons
  have hstep : step host = host.wrapUp (.ok .custom bound) := by
    have hperform : Entry.perform (stepAt (nestingLimit - 1)) (.operation Builtin.define.operation)
        { host with memory := taken, phase := .running } =
          .ok () { host with memory := bound, phase := .running } := by
      show Run.within Builtin.bind _ = _
      simp only [Run.within, hbind]
    apply step_of_dispatch hlive hpending
    rw [dispatch_entry (m := { host with phase := .running }) hdefine _ (Int.natCast_nonneg _),
      bind_apply_ok hperform, bind_apply]
    dsimp only
    cases conclude { host with memory := bound, phase := .running } <;> rfl
  obtain ⟨world, journal, hwrap⟩ := wrapUp_notified host .custom bound htold hcounted hlimit
  exact ⟨world, journal, hstep.trans hwrap⟩

/-- **The reference text of a definition restores it.** Let a machine without host operations and
without definitions have run program texts, on any stacks and with any success. Then the reference
text of a definition that it holds makes the same definition in every machine in which `DEF` is the
built-in operation, whose world raises nothing when it is notified of the step, and whose limit
allows for one: the run of the text completes in one step, and leaves the stack and all other
definitions as they were. -/
theorem execute_describe [World σ] [World τ] {m m' : Machine σ} (hm : m.Unhosted)
    (hempty : m.memory.definitions = .empty) (hreached : ReachedByTexts m m') {name : String}
    {definition : Definition} (hfind : m'.memory.definitions.find? name = some definition)
    {host : Machine τ} (hdefine : host.resolve "DEF" = some (.operation Builtin.define.operation))
    (stack : List Int) (htold : (World.stackChanged stack host.memory.world).result = .ok ())
    (hcounted :
      (World.stepped 1 (World.stackChanged stack host.memory.world).world).result = .ok ())
    (hlimit : 1 ≤ host.maxSteps) :
    ∃ last, execute (m'.describe name) stack host = .ok stack last ∧
      last.phase = .completed ∧ last.error = none ∧ last.steps = 1 ∧ last.memory.stack = stack ∧
      last.memory.definitions.find? name = some definition ∧
      ∀ other, other ≠ name →
        last.memory.definitions.find? other = host.memory.definitions.find? other := by
  have hlegible : definition.Legible :=
    (hreached.legible hm hempty).2 definition (List.mem_of_find?_eq_some hfind)
  have hname : definition.name = name := Lexicon.name_of_find? hfind
  rw [describe_of_find? hfind, execute_eq, hlegible.tokenize_text]
  let loaded := host.load ("DEF" :: definition.name :: (definition.body ++ ["END"])) stack
  obtain ⟨world, journal, hstep⟩ :=
    step_define loaded rfl hdefine htold hcounted hlimit hlegible rfl
  have hends : EndsAfter 1 loaded _ :=
    ⟨_, .finished, .cons hstep rfl (.refl _), step_end rfl rfl, rfl⟩
  rw [hends.run_eq (show 1 ≤ host.maxSteps.toNat by omega)]
  refine ⟨_, rfl, rfl, rfl, rfl, rfl, ?_, fun other hother => ?_⟩
  · show (host.memory.definitions.insert definition).find? name = _
    rw [Lexicon.find?_insert]
    exact if_pos hname.symm
  · show (host.memory.definitions.insert definition).find? other = _
    rw [Lexicon.find?_insert]
    refine if_neg ?_
    rw [show Named.name definition = name from hname]
    exact hother

/-- A definition named `END` with blocks in its body, and one named `DEF` without a body: made by
one program, which then fails, and restored within a limit of one step in a world that writes down
what it is told. -/
theorem execute_describe_delimiters :
    ∃ m' : Machine Void, ReachedByTexts (plain {} 9) m' ∧
      m'.error = some (.unknownInstruction "HOP") ∧
      m'.describe "END" = "DEF END DEF X IF ELSE END END END" ∧ m'.describe "DEF" = "DEF DEF  END" ∧
      (∃ last,
        execute (m'.describe "END") [7] (plain ({ notices := true } : Recorder) 1) = .ok [7] last ∧
        last.steps = 1 ∧ last.memory.definitions.find? "END" =
          some ⟨"END", ["DEF", "X", "IF", "ELSE", "END", "END"]⟩) ∧
      ∃ last,
        execute (m'.describe "DEF") [7] (plain ({ notices := true } : Recorder) 1) = .ok [7] last ∧
        last.steps = 1 ∧ last.memory.definitions.find? "DEF" = some ⟨"DEF", []⟩ := by
  obtain ⟨m', hreached, herror, hend, hdef⟩ : ∃ m' : Machine Void, ReachedByTexts (plain {} 9) m' ∧
      m'.error = some (.unknownInstruction "HOP") ∧
      m'.memory.definitions.find? "END" =
        some ⟨"END", ["DEF", "X", "IF", "ELSE", "END", "END"]⟩ ∧
      m'.memory.definitions.find? "DEF" = some ⟨"DEF", []⟩ := by
    refine ⟨_, ReachedByTexts.start.execute
      "DEF END DEF X #a comment# IF ELSE END END END DEF DEF END HOP" [], ?_⟩
    decide +kernel
  let host : Machine Recorder := plain { notices := true } 1
  have hdefine : host.resolve "DEF" = some (.operation Builtin.define.operation) := rfl
  refine ⟨m', hreached, herror, describe_of_find? hend, describe_of_find? hdef, ?_, ?_⟩
  · obtain ⟨last, hexecute, -, -, hsteps, -, hrestored, -⟩ := execute_describe
      (catalogue_unhosted rfl) rfl hreached hend hdefine [7] rfl rfl (Int.le_refl 1)
    exact ⟨last, hexecute, hsteps, hrestored⟩
  · obtain ⟨last, hexecute, -, -, hsteps, -, hrestored, -⟩ := execute_describe
      (catalogue_unhosted rfl) rfl hreached hdef hdefine [7] rfl rfl (Int.le_refl 1)
    exact ⟨last, hexecute, hsteps, hrestored⟩

end Machine

end StackRover
