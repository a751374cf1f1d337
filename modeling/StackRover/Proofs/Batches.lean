import Mathlib.Algebra.GroupWithZero.Nat
import StackRover.Proofs.ProgramText
import StackRover.Proofs.Sessions

/-!
# Sessions and batches

The lines of a session can be joined to one program. Line by line, the joint program strides from
where the session has asked for the line to where the run of the line has ended: the terms of the
later lines stand behind those of the current one, the count goes on, and what the session prints in
between is not read by anybody. So the joint program completes where the session does. The session
has to show its stacks in addition, and fails at one with a value of too many digits, also if that
value gives way to the ellipsis (`session_hidden_value`).

* `Machine.Matches`: what a run takes over from the one before.
* `Machine.Strides.rejournal`: strides on another journal.
* `Machine.Awaits.strides`: the joint program over the terms of one line.
* `Prompt.converse_strides`: the same over all lines.
* `Prompt.session_batch`: a session and the run of its lines at one go.
-/

namespace StackRover

variable {σ : Type}

namespace Machine

/-- The machines agree in all that a run takes over from the one before: in the stack, the
definitions, the dice and the world, and in the setup. -/
structure Matches (m m' : Machine σ) : Prop where
  stack : m'.memory.stack = m.memory.stack
  definitions : m'.memory.definitions = m.memory.definitions
  dice : m'.memory.dice = m.memory.dice
  world : m'.memory.world = m.memory.world
  operations : m'.operations = m.operations
  maxSteps : m'.maxSteps = m.maxSteps

/-- The second machine is within a run that has come to the given terms; otherwise it agrees with
the first. -/
structure Awaits (m joint : Machine σ) (terms : List String) : Prop where
  matched : m.Matches joint
  pending : joint.memory.pending = terms
  live : joint.phase.isFinal = false
  error : joint.error = none

variable {m m' m'' joint : Machine σ}

theorem Matches.trans (h : m.Matches m') (h' : m'.Matches m'') : m.Matches m'' :=
  ⟨h'.stack.trans h.stack, h'.definitions.trans h.definitions, h'.dice.trans h.dice,
    h'.world.trans h.world, h'.operations.trans h.operations, h'.maxSteps.trans h.maxSteps⟩

theorem Matches.symm (h : m.Matches m') : m'.Matches m :=
  ⟨h.stack.symm, h.definitions.symm, h.dice.symm, h.world.symm, h.operations.symm, h.maxSteps.symm⟩

theorem Matches.unhosted (h : m.Matches m') (hm : m.Unhosted) : m'.Unhosted := by
  intro operation hmem
  rw [h.operations] at hmem
  exact hm operation hmem

theorem matches_rejournal (journal : List Event) (m : Machine σ) :
    m.Matches (m.rejournal journal) :=
  ⟨rfl, rfl, rfl, rfl, rfl, rfl⟩

theorem Extends.matched {after : List String} {earlier : Nat} (h : Extends [] after earlier m m') :
    m.Matches m' := by
  refine ⟨?_, h.memory.definitions, h.memory.dice, h.memory.world, h.operations, h.maxSteps⟩
  rw [h.memory.stack, List.append_nil]

theorem Prints.matched (h : m.Prints m') : m.Matches m' := by
  obtain ⟨added, -, rfl⟩ := h
  exact matches_rejournal _ m

theorem awaits_load (m : Machine σ) (terms : List String) :
    m.Awaits (m.load terms m.memory.stack) terms :=
  ⟨⟨rfl, rfl, rfl, rfl, rfl, rfl⟩, rfl, rfl, rfl⟩

/-- To the run, nothing has happened where something was only printed. -/
theorem Awaits.of_prints {terms : List String} (h : m.Awaits joint terms) (hprints : m.Prints m') :
    m'.Awaits joint terms :=
  ⟨hprints.matched.symm.trans h.matched, h.pending, h.live, h.error⟩

variable [World σ]

theorem Strides.rejournal {n k : Nat} (h : Strides n k m m') (journal : List Event) :
    ∃ journal', Strides n k (m.rejournal journal) (m'.rejournal journal') := by
  induction h generalizing journal with
  | refl m => exact ⟨journal, .refl _⟩
  | @cons n k m next last progress hstep hgoes _ ih =>
    obtain ⟨added, -, hsame⟩ := step_rejournal m
    obtain ⟨journal', hrest⟩ := ih (added ++ journal)
    refine ⟨journal', .cons ?_ hgoes hrest⟩
    rw [hsame journal, hstep]
    rfl

theorem stack_of_run_ok {stack : List Int} {done : Machine σ} (h : run m = .ok stack done) :
    done.memory.stack = stack := by
  rw [run_eq] at h
  cases hfinish : finishWithin 0 m.allowance m with
  | error raised last =>
    rw [hfinish] at h
    cases h
  | ok _ last =>
    rw [hfinish] at h
    cases herror : last.error with
    | some fault =>
      simp only [herror] at h
      cases h
    | none =>
      simp only [herror, EStateM.Result.ok.injEq] at h
      obtain ⟨hstack, rfl⟩ := h
      exact hstack

/-- With a negative delay, a run completes only if none of its turns ends paused. -/
theorem Strides.delay_of_runPaced_ok {n k : Nat} {stop : Machine σ} (hm : m.Unhosted) {delay : Int}
    {text : String} {stack stack' : List Int} {done : Machine σ}
    (h : Strides n k (m.load (Program.tokenize text) stack) stop)
    (hn : n < (m.load (Program.tokenize text) stack).allowance)
    (hrun : runPaced delay text stack m = .ok stack' done) : 0 ≤ delay ∨ k = 0 := by
  have hsteady : (m.load (Program.tokenize text) stack).Steady fun _ => True :=
    ((load_sameSetup m _ stack).unhosted hm).steady (raisesOnly_any σ) fun _ _ => trivial
  by_contra hnot
  rw [not_or, Int.not_le] at hnot
  obtain ⟨next, -, hraises⟩ := h.finish_negative hsteady hn hnot.2 hnot.1
  rw [runPaced_eq_finish, hraises] at hrun
  cases hrun

/-- The strides of a paced run that completes. -/
theorem strides_of_runPaced_ok (hq : QuietHooks σ) (hm : m.Unhosted) {delay : Int} {text : String}
    {stack stack' : List Int} {done : Machine σ}
    (h : runPaced delay text stack m = .ok stack' done) :
    ∃ k stop, Strides done.steps k (m.load (Program.tokenize text) stack) stop ∧
      (0 ≤ delay ∨ k = 0) ∧ stop.memory.pending = [] ∧ stop.error = none ∧ stop.Matches done := by
  have hload : (m.load (Program.tokenize text) stack).Unhosted :=
    (load_sameSetup m _ stack).unhosted hm
  have hsteady : (m.load (Program.tokenize text) stack).Steady fun _ => True :=
    hload.steady (raisesOnly_any σ) fun _ _ => trivial
  obtain ⟨n, k, last, hstrides, hn, hstop, -, hrun⟩ := hsteady.exists_strides
  have hdelay := hstrides.delay_of_runPaced_ok hm hn h
  obtain ⟨journal, -, hpaced⟩ := hstrides.finish_paced hstop hn hdelay
  rw [← runPaced_eq_finish, h, ← hrun] at hpaced
  cases hresult : run (m.load (Program.tokenize text) stack) with
  | error raised last =>
    rw [hresult] at hpaced
    cases hpaced
  | ok stack'' last =>
    rw [hresult] at hpaced
    obtain ⟨rfl, rfl⟩ := EStateM.Result.ok.inj hpaced
    obtain ⟨stop, hwalk, hpending, hstack, herror, -, hdefinitions, hdice, hworld, -, hsetup⟩ :=
      walk_of_run_ok hq hm hresult
    have hstack' := (stack_of_run_ok hresult).trans hstack.symm
    have hmatches : stop.Matches last :=
      ⟨hstack', hdefinitions, hdice, hworld, hsetup.operations, hsetup.maxSteps⟩
    have hlength : last.steps < (m.load (Program.tokenize text) stack).allowance := by
      have hallowance := lt_allowance (m.load (Program.tokenize text) stack)
      have hle := hwalk.steps_le hq hload
      omega
    obtain ⟨turns, hstrides'⟩ := hwalk.exists_strides
    exact ⟨turns, stop, hstrides', hstrides'.delay_of_runPaced_ok hm hlength h, hpending, herror,
      hmatches.trans (matches_rejournal journal last)⟩

/-- The joint program over the terms of one line. The run of the line itself is a walk, which does
not notice that more terms stand behind its own, that the count goes on, and what was printed
before. -/
theorem Awaits.strides (hq : QuietHooks σ) (hm : m.Unhosted) {delay : Int} {text : String}
    {after : List String} {stack : List Int} {done : Machine σ}
    (h : m.Awaits joint (Program.tokenize text ++ after))
    (hrun : runPaced delay text m.memory.stack m = .ok stack done)
    (hroom : ((joint.steps + done.steps : Nat) : Int) ≤ m.maxSteps) :
    ∃ k joint', Strides done.steps k joint joint' ∧ (0 ≤ delay ∨ k = 0) ∧
      done.Awaits joint' after := by
  obtain ⟨k, stop, hstrides, hdelay, hpending, herror, hmatches⟩ :=
    strides_of_runPaced_ok hq hm hrun
  generalize Program.tokenize text = terms at h hstrides
  have hsteps : stop.steps = 0 + done.steps :=
    hstrides.walk.steps_eq hq ((load_sameSetup m terms m.memory.stack).unhosted hm)
  -- With the journal of the joint run, the run of the line is one that the joint run extends.
  obtain ⟨journal, hstrides'⟩ := hstrides.rejournal joint.memory.journal
  have hextends : Extends [] after joint.steps
      ((m.load terms m.memory.stack).rejournal joint.memory.journal) joint := by
    refine ⟨⟨?_, h.pending, h.matched.definitions, h.matched.dice, h.matched.world, rfl⟩,
      h.matched.operations, h.matched.maxSteps, rfl, h.error⟩
    rw [List.append_nil]
    exact h.matched.stack
  have hroomy : Roomy joint.steps ((m.load terms m.memory.stack).rejournal joint.memory.journal)
      (stop.rejournal journal).steps := by
    refine Or.inr ?_
    show ((joint.steps + stop.steps : Nat) : Int) ≤ m.maxSteps
    omega
  have hsame := matches_rejournal joint.memory.journal (m.load terms m.memory.stack)
  obtain ⟨joint', hjoint', hjoint, hlive⟩ :=
    strides_extends hq (hsame.unhosted hm) hextends h.live hstrides' hroomy
  have hstop : stop.Matches joint' := (matches_rejournal journal stop).trans hjoint.matched
  refine ⟨k, joint', hjoint', hdelay, hmatches.symm.trans hstop, ?_, hlive,
    hjoint.error.trans herror⟩
  rw [hjoint.memory.pending]
  show stop.memory.pending ++ after = after
  rw [hpending]
  rfl

/-- A run that has come to its end: what its strides leave is its result. -/
theorem runPaced_of_strides {delay : Int} {text : String} {n k : Nat}
    (hstrides : Strides n k (m.load (Program.tokenize text) m.memory.stack) joint)
    (hdelay : 0 ≤ delay ∨ k = 0) (hn : (n : Int) ≤ m.maxSteps) (h : m'.Awaits joint []) :
    ∃ done, runPaced delay text m.memory.stack m = .ok m'.memory.stack done ∧ m'.Matches done := by
  obtain ⟨last, hstep, herror, hlast⟩ : ∃ last, step joint = .ok .finished last ∧
      last.error = none ∧ joint.Matches last :=
    ⟨_, step_end h.live h.pending, h.error, rfl, rfl, rfl, rfl, rfl, rfl⟩
  have hlength : n < (m.load (Program.tokenize text) m.memory.stack).allowance := by
    have hallowance := lt_allowance (m.load (Program.tokenize text) m.memory.stack)
    have hlimit : (m.load (Program.tokenize text) m.memory.stack).maxSteps = m.maxSteps := rfl
    omega
  have hstop : ∀ progress next, step joint = .ok progress next → progress.goesOn = false := by
    intro progress next hnext
    rw [hstep] at hnext
    cases hnext
    rfl
  obtain ⟨journal, -, hpaced⟩ := hstrides.finish_paced hstop hlength hdelay
  have houtcome : outcomeOf (step joint) = .ok last.memory.stack last := by
    rw [hstep]
    show outcome last = _
    rw [outcome_eq, herror]
  rw [← runPaced_eq_finish, houtcome] at hpaced
  have hmatches := h.matched.trans hlast
  refine ⟨last.rejournal journal, ?_, hmatches.trans (matches_rejournal journal last)⟩
  rw [hpaced, ← hmatches.stack]
  rfl

end Machine

namespace Prompt

open Machine

variable [World σ] {m joint : Machine σ}

/-- Whether the run of the input completes, if it is a program. -/
def Encounter.completes (delay : Int) (chomps : Bool) (e : Encounter σ) : Bool :=
  (e.run? delay chomps).all fun result => (valueOf result).isSome

/-- The number of steps of the program that is run for the input. -/
def Encounter.steps (delay : Int) (chomps : Bool) (e : Encounter σ) : Nat :=
  ((e.run? delay chomps).map fun result => (stateOf result).steps).getD 0

/-- A line is read with or without its line ends, which makes no difference to what it asks for and
to its terms. -/
theorem exists_line? (chomps : Bool) (text : String) :
    ∃ line, line? chomps (.line text) = some line ∧
      (∀ delay, (respond delay chomps (.line text) : Run σ Bool) = respondTo delay line) ∧
      Command.ofLine line = Command.ofLine text ∧
      Program.tokenize line = Program.tokenize text := by
  cases chomps with
  | false => exact ⟨text, rfl, fun _ => rfl, rfl, rfl⟩
  | true => exact ⟨chomp text, rfl, fun _ => rfl, ofLine_chomp text, tokenize_chomp text⟩

/-- What a program line does that completes and whose stack can be shown. -/
theorem respond_program {delay : Int} {chomps : Bool} {text : String}
    (hprogram : Command.ofLine text = .program)
    (hcompletes : (⟨.line text, m⟩ : Encounter σ).completes delay chomps = true)
    (hshow : (⟨.line text, m⟩ : Encounter σ).showable delay chomps = true) :
    ∃ line stack done next, Program.tokenize line = Program.tokenize text ∧
      runPaced delay line m.memory.stack m = .ok stack done ∧
      (⟨.line text, m⟩ : Encounter σ).steps delay chomps = done.steps ∧
      respond delay chomps (.line text) m = .ok true next ∧ done.Prints next := by
  obtain ⟨line, hline, hrespond, hcommand, hterms⟩ := exists_line? (σ := σ) chomps text
  rw [hprogram] at hcommand
  have hrun? : (⟨.line text, m⟩ : Encounter σ).run? delay chomps =
      some (runPaced delay line m.memory.stack m) := by
    unfold Encounter.run?
    rw [hline, Option.bind_some, hcommand]
  obtain ⟨stack, done, hrun⟩ : ∃ stack done,
      runPaced delay line m.memory.stack m = .ok stack done := by
    unfold Encounter.completes at hcompletes
    rw [hrun?, Option.all_some] at hcompletes
    obtain ⟨stack, hstack⟩ := Option.isSome_iff_exists.mp hcompletes
    exact ⟨stack, _, eq_ok_of_valueOf hstack⟩
  have hwritable : done.memory.stack.all Text.isWritable = true := by
    unfold Encounter.showable Encounter.shown? at hshow
    rw [hline, Option.bind_some, hcommand, hrun] at hshow
    exact hshow
  obtain ⟨next, hnext, hprints⟩ := showStack_of_writable hwritable
  refine ⟨line, stack, done, next, hterms, hrun, ?_, ?_, hprints⟩
  · unfold Encounter.steps
    rw [hrun?, hrun]
    rfl
  · have hrunLine : runLine delay line m = .ok () next := (runLine_ok hrun).trans hnext
    rw [hrespond]
    unfold respondTo
    rw [hcommand]
    exact bind_apply_ok hrunLine

/-- The joint program over the terms of all lines. The induction is on the lines: the response to
each leaves a machine that agrees with the one that the strides over its terms have come to. -/
theorem converse_strides (hq : QuietHooks σ) (delay : Int) (chomps : Bool) {lines : List String}
    (hprograms : ∀ line ∈ lines, Command.ofLine line = .program) (hm : m.Unhosted)
    (hruns : ∀ e ∈ encounters delay chomps m (lines.map .line), e.completes delay chomps = true)
    (hshow : ∀ e ∈ encounters delay chomps m (lines.map .line), e.showable delay chomps = true)
    (h : m.Awaits joint (lines.flatMap Program.tokenize))
    (hroom : ((joint.steps +
      ((encounters delay chomps m (lines.map .line)).map (Encounter.steps delay chomps)).sum : Nat)
        : Int) ≤ m.maxSteps) :
    ∃ k last joint', converse delay chomps (lines.map .line) m = .ok () last ∧
      Strides ((encounters delay chomps m (lines.map .line)).map (Encounter.steps delay chomps)).sum
        k joint joint' ∧
      (0 ≤ delay ∨ k = 0) ∧ last.Awaits joint' [] := by
  induction lines generalizing m joint with
  | nil =>
    exact ⟨0, asked m, joint, rfl, .refl joint, Or.inr rfl, h.of_prints (asked_prints m)⟩
  | cons text lines ih =>
    rw [List.forall_mem_cons] at hprograms
    rw [List.map_cons, encounters] at hruns hshow hroom ⊢
    rw [List.forall_mem_cons] at hruns hshow
    rw [List.map_cons, List.sum_cons] at hroom ⊢
    have hasked : (asked m).Unhosted := (asked_prints m).sameSetup.unhosted hm
    obtain ⟨line, stack, done, next, hterms, hrun, hsteps, hrespond, hprints⟩ :=
      respond_program hprograms.1 hruns.1 hshow.1
    rw [hrespond, stateOf_ok] at hruns hshow hroom ⊢
    rw [hsteps] at hroom ⊢
    have hfirst : (asked m).Awaits joint
        (Program.tokenize line ++ lines.flatMap Program.tokenize) := by
      rw [hterms]
      exact h.of_prints (asked_prints m)
    obtain ⟨k, joint', hstrides, hdelay, hdone⟩ := hfirst.strides hq hasked hrun (by
      rw [(asked_prints m).sameSetup.maxSteps]
      omega)
    have hjoint : joint.Unhosted := h.matched.unhosted hm
    have hsame := hstrides.walk.sameSetup hjoint
    have hnext := hdone.of_prints hprints
    have hcount := hstrides.walk.steps_eq hq hjoint
    have hlimit : next.maxSteps = m.maxSteps :=
      hnext.matched.maxSteps.symm.trans (hsame.maxSteps.trans h.matched.maxSteps)
    obtain ⟨k', last, joint'', hconverse, hrest, hdelay', hlast⟩ :=
      ih hprograms.2 (hnext.matched.symm.unhosted (hsame.unhosted hjoint)) hruns.2 hshow.2 hnext (by
        rw [hlimit, hcount]
        omega)
    refine ⟨k + k', last, joint'', ?_, hstrides.trans hrest, by omega, hlast⟩
    have hask : ask m = .ok () (asked m) := rfl
    unfold converse
    rw [bind_apply_ok hask, bind_apply_ok hrespond]
    exact hconverse

/-- **A session is the batch run of its lines.** Let the world take no notice of the notifications.
Let no line be a command, and let each but the last close its comments. If every line run in turn
completes, with a stack none of whose values has too many digits, and if all together stay within
the limit of steps, then the session comes to its end, and so does the run of the lines joined by
line breaks; both leave the same stack, definitions, world and dice. -/
theorem session_batch (hq : QuietHooks σ) (hm : m.Unhosted) (delay : Int) (chomps : Bool)
    {lines : List String} (hprograms : ∀ line ∈ lines, Command.ofLine line = .program)
    (hcomments : ∀ line ∈ lines.dropLast, Even (line.toList.count Program.commentMark))
    (hruns : ∀ e ∈ encounters delay chomps (greeted m) (lines.map .line),
      e.completes delay chomps = true)
    (hshow : ∀ e ∈ encounters delay chomps (greeted m) (lines.map .line),
      e.showable delay chomps = true)
    (hsteps : ((((encounters delay chomps (greeted m) (lines.map .line)).map
      (Encounter.steps delay chomps)).sum : Nat) : Int) ≤ m.maxSteps) :
    ∃ last done, session delay chomps (lines.map .line) m = .ok () last ∧
      runPaced delay (String.intercalate "\n" lines) m.memory.stack m = .ok last.memory.stack done ∧
      done.memory.stack = last.memory.stack ∧ done.memory.definitions = last.memory.definitions ∧
      done.memory.world = last.memory.world ∧ done.memory.dice = last.memory.dice := by
  have hgreet : greet m = .ok () (greeted m) := rfl
  have hgreeted := greeted_prints m
  have hstart : m.Awaits (m.load (Program.tokenize (String.intercalate "\n" lines)) m.memory.stack)
      (lines.flatMap Program.tokenize) := by
    rw [← Program.tokenize_lines hcomments]
    exact awaits_load m _
  have hzero :
      (m.load (Program.tokenize (String.intercalate "\n" lines)) m.memory.stack).steps = 0 := rfl
  obtain ⟨k, last, joint, hconverse, hstrides, hdelay, hlast⟩ :=
    converse_strides hq delay chomps hprograms (hgreeted.sameSetup.unhosted hm) hruns hshow
      (hstart.of_prints hgreeted) (by
        rw [hgreeted.sameSetup.maxSteps, hzero, Nat.zero_add]
        exact hsteps)
  obtain ⟨done, hrun, hmatches⟩ := runPaced_of_strides hstrides hdelay hsteps hlast
  refine ⟨last, done, ?_, hrun, hmatches.stack, hmatches.definitions, hmatches.world, hmatches.dice⟩
  unfold session
  rw [bind_apply_ok hgreet]
  exact hconverse

/-- A definition of the first line is used by the second, the third ends in a comment that nothing
closes, and the limit is just enough. -/
theorem session_batch_definition :
    ∃ last done,
      session 250 true
        (["DEF SQ DUP MUL END # squares #", "PUSH 2 SQ UP\r", "PUSH 9 RAND # draw"].map .line)
        (plain ({ echo := true } : Plane) 8) = .ok () last ∧
      runPaced 250 "DEF SQ DUP MUL END # squares #\nPUSH 2 SQ UP\r\nPUSH 9 RAND # draw" []
        (plain ({ echo := true } : Plane) 8) = .ok last.memory.stack done ∧
      done.memory.definitions = last.memory.definitions ∧
      done.memory.world = last.memory.world ∧ done.memory.dice = last.memory.dice := by
  have hmet : (encounters 250 true (greeted (plain ({ echo := true } : Plane) 8))
        (["DEF SQ DUP MUL END # squares #", "PUSH 2 SQ UP\r", "PUSH 9 RAND # draw"].map .line)).all
          (fun e => e.completes 250 true && e.showable 250 true) = true ∧
      ((((encounters 250 true (greeted (plain ({ echo := true } : Plane) 8))
        (["DEF SQ DUP MUL END # squares #", "PUSH 2 SQ UP\r", "PUSH 9 RAND # draw"].map .line)).map
          (Encounter.steps 250 true)).sum : Nat) : Int) ≤ 8 := by
    decide +kernel
  obtain ⟨hall, hsteps⟩ := hmet
  rw [List.all_eq_true] at hall
  have hcomments : ∀ line ∈ ["DEF SQ DUP MUL END # squares #", "PUSH 2 SQ UP\r"],
      Even (line.toList.count Program.commentMark) := by
    decide
  have hprograms :
      ∀ line ∈ ["DEF SQ DUP MUL END # squares #", "PUSH 2 SQ UP\r", "PUSH 9 RAND # draw"],
        Command.ofLine line = .program := by
    decide +kernel
  obtain ⟨last, done, hsession, hrun, -, hdefinitions, hworld, hdice⟩ :=
    session_batch (m := plain ({ echo := true } : Plane) 8) quietHooks_plane
      (catalogue_unhosted rfl) 250 true hprograms hcomments
      (fun e he => (Bool.and_eq_true_iff.mp (hall e he)).1)
      (fun e he => (Bool.and_eq_true_iff.mp (hall e he)).2) hsteps
  exact ⟨last, done, hsession, hrun, hdefinitions, hworld, hdice⟩

/-- The values of a stack that its row shows: all of them, or those beside the ellipsis. -/
def displayed (stack : List Int) : List Int :=
  if shownItems < stack.length then stack.take (shownItems - 1).toNat else stack

/-- It is not enough that the displayed values can be written. Nine squared thirteen times lies
below five other values, and the ellipsis would stand for it; but the whole stack is written before
it is shortened, so the session ends with the first line. The joint program completes. -/
theorem session_hidden_value :
    let m := plain ({ echo := true } : Plane) 1000000
    let lines :=
      ["PUSH 9 DEF Q DUP MUL END Q Q Q Q Q Q Q Q Q Q Q Q Q PUSH 1 PUSH 2 PUSH 3 PUSH 4 PUSH 5",
        "PUSH 6"]
    let met := encounters 0 false (greeted m) (lines.map .line)
    QuietHooks Plane ∧ m.Unhosted ∧
    (∀ line ∈ lines, Command.ofLine line = .program) ∧
    (∀ line ∈ lines.dropLast, Even (line.toList.count Program.commentMark)) ∧
    (∀ e ∈ met, e.completes 0 false = true) ∧
    (∀ e ∈ met,
      (e.shown? 0 false).all (fun stack => (displayed stack).all Text.isWritable) = true) ∧
    (((met.map (Encounter.steps 0 false)).sum : Nat) : Int) ≤ m.maxSteps ∧
    raisedOf (session 0 false (lines.map .line) m) = some (.failure (.tooManyDigits none)) ∧
    (valueOf (runPaced 0 (String.intercalate "\n" lines) m.memory.stack m)).map List.length =
      some 7 := by
  intro m lines met
  have hmet : met.all (fun e => e.completes 0 false &&
        (e.shown? 0 false).all fun stack => (displayed stack).all Text.isWritable) = true ∧
      (((met.map (Encounter.steps 0 false)).sum : Nat) : Int) ≤ m.maxSteps ∧
      raisedOf (session 0 false (lines.map .line) m) = some (.failure (.tooManyDigits none)) ∧
      (valueOf (runPaced 0 (String.intercalate "\n" lines) m.memory.stack m)).map List.length =
        some 7 := by
    decide +kernel
  obtain ⟨hall, hsteps, hsession, hrun⟩ := hmet
  rw [List.all_eq_true] at hall
  have hprograms : ∀ line ∈ lines, Command.ofLine line = .program := by decide +kernel
  have hcomments : ∀ line ∈ lines.dropLast, Even (line.toList.count Program.commentMark) := by
    decide
  exact ⟨quietHooks_plane, catalogue_unhosted rfl, hprograms, hcomments,
    fun e he => (Bool.and_eq_true_iff.mp (hall e he)).1,
    fun e he => (Bool.and_eq_true_iff.mp (hall e he)).2, hsteps, hsession, hrun⟩

end Prompt

end StackRover
