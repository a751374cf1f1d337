import StackRover.Proofs.Brackets
import StackRover.Proofs.Runs
import StackRover.World.Plane

/-!
# Runs of well-bracketed programs

A machine is orderly if its pending terms are well-bracketed and so is the body of every definition.
Every term keeps that: `IF` puts one of its arms in the place of its block, `DEF` takes a block
away, a name puts a body in its place, and the operand of a `PUSH` is no delimiter even if it stands
beyond the block that the `PUSH` was written in. So no program of this kind ever fails for its
structure.

* `effectOf_orderly`: one term.
* `step_orderly`: one step.
* `run_bracketed`: every machine that a run reaches.
-/

namespace StackRover

open Block

/-- The definitions are well-bracketed, and none of them has the name of a delimiter. -/
def BracketedTable (definitions : Lexicon Definition) : Prop :=
  ∀ definition ∈ definitions.entries,
    definition.name ∉ delimiters ∧ Bracketed definition.body

/-- The pending terms and the definitions are well-bracketed. -/
structure Memory.Orderly {σ : Type} (m : Memory σ) : Prop where
  pending : Bracketed m.pending
  definitions : BracketedTable m.definitions

/-- The result leaves an orderly memory, except that what ends the run may leave any; and what ends
the run is no structural fault. -/
def LeavesOrder {σ α : Type} : EStateM.Result Raised (Memory σ) α → Prop
  | .ok _ m => m.Orderly
  | .error raised m => raised.IsMild ∧ (raised.ending? = none → m.Orderly)

theorem BracketedTable.insert {definitions : Lexicon Definition} (h : BracketedTable definitions)
    {name : String} {body : List String} (hname : name ∉ delimiters) (hbody : Bracketed body) :
    BracketedTable (definitions.insert ⟨name, body⟩) := by
  intro definition hmem
  rcases Lexicon.mem_of_mem_place hmem with rfl | hold
  · exact ⟨hname, hbody⟩
  · exact h definition hold

theorem BracketedTable.find {definitions : Lexicon Definition} (h : BracketedTable definitions)
    {name : String} {definition : Definition} (hfind : definitions.find? name = some definition) :
    name ∉ delimiters ∧ Bracketed definition.body := by
  have hname : definition.name = name := Lexicon.name_of_find? hfind
  have hentry := h definition (List.mem_of_find?_eq_some hfind)
  rw [hname] at hentry
  exact hentry

/-! ## What ends a run -/

/-- A mild error ends a run with a fault that is not structural. -/
theorem Raised.IsMild.ending {raised : Raised} (h : raised.IsMild) {fault : Fault}
    (hending : raised.ending? = some fault) : ¬ fault.IsStructural := by
  cases raised with
  | fault f =>
    cases hending
    exact h fault rfl
  | failure f =>
    cases hending
    exact id
  | interrupt | exhausted => cases hending

theorem leavesOrder_ofFault {σ α : Type} {fault : Fault} (h : ¬ fault.IsStructural)
    (m : Memory σ) :
    LeavesOrder (.error (Raised.ofFault fault) m : EStateM.Result Raised (Memory σ) α) :=
  ⟨Raised.isMild_ofFault h, fun hnone => absurd hnone (Raised.ending?_ofFault fault)⟩

/-! ## Operations that read ahead -/

namespace Builtin

variable {σ : Type} {m : Memory σ}

theorem not_mem_delimiters_of_digit {operand : String} {value : Int}
    (h : digit operand = .ok value) : operand ∉ delimiters := by
  intro hmem
  have hread : ∀ delimiter ∈ delimiters, Text.readLiteral delimiter = .malformed := by decide
  unfold digit at h
  rw [hread operand hmem] at h
  cases h

/-- The operand of a `PUSH` that denotes no digit is named by the fault, if it is no numeral. -/
theorem digit_error {operand : String} {raised : Raised} (h : digit operand = .error raised)
    (helse : operand ≠ "ELSE") (hend : operand ≠ "END") :
    raised.IsMild ∧ raised.ending? ≠ none := by
  unfold digit at h
  split at h
  · cases h
    refine ⟨Raised.isMild_ofFault ?_, Raised.ending?_ofFault _⟩
    rintro (heq | heq)
    · exact hend heq
    · exact helse heq
  · cases h
    exact ⟨Raised.isMild_failure _, by simp [Raised.ending?]⟩
  · split at h
    · cases h
    · rw [← Except.error.inj h]
      exact ⟨Raised.isMild_ofFault id, Raised.ending?_ofFault _⟩

theorem pushLiteral_orderly (hpending : Bracketed m.pending)
    (htable : BracketedTable m.definitions) : LeavesOrder (pushLiteral m) := by
  cases hp : m.pending with
  | nil =>
    rw [pushLiteral_nil hp]
    exact leavesOrder_ofFault (by simp [Fault.IsStructural]) m
  | cons operand rest =>
    rw [hp] at hpending
    rw [pushLiteral_cons hp]
    cases hdigit : digit operand with
    | ok value => exact ⟨hpending.tail (not_mem_delimiters_of_digit hdigit), htable⟩
    | error raised =>
      obtain ⟨helse, hend⟩ := hpending.head_ne
      obtain ⟨hmild, hending⟩ := digit_error hdigit helse hend
      exact ⟨hmild, fun hnone => absurd hnone hending⟩

theorem choose_orderly (hpending : Bracketed ("IF" :: m.pending))
    (htable : BracketedTable m.definitions) (hdepth : 1 ≤ m.stack.length) :
    LeavesOrder (choose m) := by
  obtain ⟨condition, stack, hs⟩ := List.exists_cons_of_length_pos hdepth
  rcases hpending.of_branch with ⟨arm, rest, hp, harm, hrest⟩ |
    ⟨onTrue, onFalse, rest, hp, htrue, hfalse, hrest⟩
  · have hsplit := Arms.split_of_bracketed harm rest
    rw [← hp] at hsplit
    have hdrop : m.pending.drop (arm.length + 1) = rest := by
      rw [hp, drop_block]
    rw [choose_cons hsplit hs]
    refine ⟨?_, htable⟩
    simp only [hdrop]
    split
    · exact harm.append hrest
    · exact hrest
  · have hsplit := Arms.split_of_bracketed_else htrue hfalse rest
    rw [← hp] at hsplit
    have hdrop : m.pending.drop (onTrue.length + 1 + onFalse.length + 1) = rest := by
      rw [hp, drop_block_else]
    rw [choose_cons hsplit hs]
    refine ⟨?_, htable⟩
    simp only [hdrop]
    split
    · exact htrue.append hrest
    · exact hfalse.append hrest

theorem bind_orderly (hpending : Bracketed ("DEF" :: m.pending))
    (htable : BracketedTable m.definitions) : LeavesOrder (Builtin.bind m) := by
  obtain ⟨name, body, rest, hp, hname, hbody, hrest⟩ := hpending.of_define
  rw [bind_cons hp (closing_of_bracketed hbody rest)]
  rw [drop_block, List.take_left]
  exact ⟨hrest, htable.insert hname hbody⟩

end Builtin

namespace Machine

variable {σ : Type} {m : Machine σ}

/-! ## One term -/

/-- What a term stands for, and what follows it in an orderly memory. -/
theorem meaning?_orderly (horderly : m.memory.Orderly) {name : String} {meaning : Meaning}
    (h : m.meaning? name = some meaning) :
    (∃ terms, meaning = .body terms ∧ name ∉ delimiters ∧ Bracketed terms) ∨
      ∃ builtin : Builtin, meaning = .builtin builtin ∧ name = builtin.name := by
  unfold meaning? at h
  cases hfind : m.memory.definitions.find? name with
  | some definition =>
    simp only [hfind, Option.some.injEq] at h
    obtain ⟨hname, hbody⟩ := horderly.definitions.find hfind
    exact Or.inl ⟨definition.body, h.symm, hname, hbody⟩
  | none =>
    simp only [hfind] at h
    split at h
    · obtain ⟨builtin, hbuiltin, hmeaning⟩ := Option.map_eq_some_iff.mp h
      exact Or.inr ⟨builtin, hmeaning.symm, (Builtin.name_of_ofName? hbuiltin).symm⟩
    · cases h

theorem name_not_mem_delimiters {builtin : Builtin} (hbranch : builtin ≠ .branch)
    (hdefine : builtin ≠ .define) : builtin.name ∉ delimiters := by
  cases builtin with
  | branch => exact absurd rfl hbranch
  | define => exact absurd rfl hdefine
  | go direction => cases direction <;> decide
  | _ => decide

/-- A built-in operation leaves order, if its term and those behind it are well-bracketed. -/
theorem perform_orderly [World σ] (hworld : RaisesOnly σ Raised.IsMild) {builtin : Builtin}
    {memory : Memory σ} (hpending : Bracketed (builtin.name :: memory.pending))
    (htable : BracketedTable memory.definitions)
    (hdepth : builtin.minDepth ≤ memory.stack.length) : LeavesOrder (builtin.perform memory) := by
  by_cases hbranch : builtin = .branch
  · subst hbranch
    exact Builtin.choose_orderly hpending htable hdepth
  by_cases hdefine : builtin = .define
  · subst hdefine
    exact Builtin.bind_orderly hpending htable
  have hrest : Bracketed memory.pending :=
    hpending.tail (name_not_mem_delimiters hbranch hdefine)
  by_cases hpush : builtin = .push
  · subst hpush
    exact Builtin.pushLiteral_orderly hrest htable
  have hreads : builtin.readsAhead = false := by
    cases builtin with
    | push => exact absurd rfl hpush
    | branch => exact absurd rfl hbranch
    | define => exact absurd rfl hdefine
    | _ => rfl
  have hkeeps := Builtin.perform_keeps hworld (fun _ h => h) hreads
  have horderly : (stateOf (builtin.perform memory)).Orderly := by
    refine ⟨?_, ?_⟩
    · rw [hkeeps.pending]
      exact hrest
    · rw [hkeeps.definitions]
      exact htable
  cases hperform : builtin.perform memory with
  | ok _ after =>
    rw [hperform] at horderly
    exact horderly
  | error raised after =>
    rw [hperform] at horderly
    exact ⟨hkeeps.raises _ _ _ hperform, fun _ => horderly⟩

/-- A term leaves order. -/
theorem effectOf_orderly [World σ] (hworld : RaisesOnly σ Raised.IsMild)
    (horderly : m.memory.Orderly) {name : String} {rest : List String}
    (hpending : m.memory.pending = name :: rest) :
    LeavesOrder (m.effectOf name rest) := by
  have hterms := horderly.pending
  rw [hpending] at hterms
  unfold effectOf
  cases hmeaning : m.meaning? name with
  | none =>
    refine leavesOrder_ofFault ?_ _
    rintro (hend | helse)
    · exact hterms.head_ne.2 hend
    · exact hterms.head_ne.1 helse
  | some meaning =>
    simp only
    split
    · rename_i hdepth
      have htask : LeavesOrder (meaning.task (m.taken name rest)) := by
        rcases meaning?_orderly horderly hmeaning with ⟨terms, rfl, hname, hbody⟩ |
          ⟨builtin, rfl, rfl⟩
        · exact ⟨hbody.append (hterms.tail hname), horderly.definitions⟩
        · exact perform_orderly hworld hterms horderly.definitions hdepth
      cases hresult : meaning.task (m.taken name rest) with
      | ok _ memory =>
        rw [hresult] at htask
        exact htask
      | error raised memory =>
        rw [hresult] at htask
        exact htask
    · exact leavesOrder_ofFault id _

/-! ## One step -/

theorem within_ask_raises {permitted : Raised → Prop} {request : σ → Reply σ Unit}
    (h : ∀ w raised, (request w).result = .error raised → permitted raised) {after : Machine σ}
    {raised : Raised} (hask : Run.within (Task.ask request) m = .error raised after) :
    permitted raised := by
  unfold Run.within at hask
  cases htask : Task.ask request m.memory with
  | ok _ memory =>
    rw [htask] at hask
    cases hask
  | error raised' memory =>
    rw [htask] at hask
    cases hask
    exact (Task.Keeps.ask h).raises _ _ _ htask

/-- What is raised at the conclusion of a step comes from the world, or it is the limit. -/
theorem conclude_raises [World σ] (hworld : RaisesOnly σ Raised.IsMild) {after : Machine σ}
    {raised : Raised} (h : conclude m = .error raised after) : raised.IsMild := by
  unfold conclude at h
  simp only [bind_apply, get_apply, modify_apply] at h
  cases hs : Run.within (Task.ask (World.stackChanged m.memory.stack)) m with
  | error raised' told =>
    rw [hs] at h
    cases h
    exact within_ask_raises (hworld.stackChanged _) hs
  | ok _ told =>
    simp only [hs] at h
    cases ht : Run.within (Task.ask (World.stepped (told.steps + 1)))
        { told with steps := told.steps + 1 } with
    | error raised' last =>
      simp only [ht] at h
      cases h
      exact within_ask_raises (hworld.stepped _) ht
    | ok _ last =>
      simp only [ht] at h
      split at h
      · injection h with hraised
        rw [← hraised]
        exact Raised.isMild_ofFault id
      · cases h

/-- The run is orderly unless it has failed, and it has not failed with a structural fault. -/
structure Orderly (m : Machine σ) : Prop where
  memory : m.phase ≠ .failed → m.memory.Orderly
  error : ∀ fault, m.error = some fault → ¬ fault.IsStructural

theorem settle_orderly {raised : Raised} (hmild : raised.IsMild)
    (hmemory : raised.ending? = none → m.memory.Orderly)
    (herror : ∀ fault, m.error = some fault → ¬ fault.IsStructural) :
    (stateOf (settle raised m)).Orderly := by
  unfold settle
  cases hending : raised.ending? with
  | some fault =>
    refine ⟨fun hphase => absurd rfl hphase, ?_⟩
    intro other hother
    cases hother
    exact hmild.ending hending
  | none => exact ⟨fun _ => hmemory hending, herror⟩

/-- A step leaves an orderly run. -/
theorem step_orderly [World σ] (hworld : RaisesOnly σ Raised.IsMild) (hm : m.Unhosted)
    (h : m.Orderly) : (stateOf (step m)).Orderly := by
  cases hfinal : m.phase.isFinal with
  | true =>
    rw [step_final hfinal]
    exact h
  | false =>
    have hmemory : m.memory.Orderly := by
      apply h.memory
      intro hfailed
      rw [hfailed] at hfinal
      cases hfinal
    cases hpending : m.memory.pending with
    | nil =>
      rw [step_end hfinal hpending]
      exact ⟨fun _ => ⟨hmemory.pending, hmemory.definitions⟩, h.error⟩
    | cons name rest =>
      have heffect := effectOf_orderly hworld hmemory hpending
      rw [step_term hm hfinal hpending]
      cases hresult : m.effectOf name rest with
      | error raised memory =>
        rw [hresult] at heffect
        exact settle_orderly heffect.1 heffect.2 h.error
      | ok category memory =>
        rw [hresult] at heffect
        -- Whatever the notifications do, they reach neither the terms nor the definitions.
        have hnotified := conclude_notified { m with memory := memory, phase := .running }
        have hafter : (stateOf
            (conclude { m with memory := memory, phase := .running })).memory.Orderly := by
          refine ⟨?_, ?_⟩
          · rw [hnotified.pending]
            exact heffect.pending
          · rw [hnotified.definitions]
            exact heffect.definitions
        have herror := h.error
        rw [← hnotified.error] at herror
        simp only
        cases hconclude : conclude { m with memory := memory, phase := .running } with
        | ok _ after =>
          rw [hconclude] at hafter herror
          exact ⟨fun _ => hafter, herror⟩
        | error raised after =>
          rw [hconclude] at hafter herror
          exact settle_orderly (conclude_raises hworld hconclude) (fun _ => hafter) herror

/-! ## Runs -/

theorem load_orderly (htable : BracketedTable m.memory.definitions) {terms : List String}
    (hterms : Bracketed terms) (stack : List Int) : (m.load terms stack).Orderly := by
  refine ⟨fun _ => ⟨hterms, htable⟩, ?_⟩
  intro fault hfault
  cases hfault

/-- **Well-bracketed programs never fail for their structure.** In a world that raises no fault of
its own, every machine that the run of a well-bracketed program reaches has well-bracketed pending
terms and definitions, unless it has failed; and it has not failed with a structural fault. -/
theorem run_bracketed [World σ]
    (hworld : RaisesOnly σ fun raised => ∀ fault, raised ≠ .fault fault) (hm : m.Unhosted)
    (htable : BracketedTable m.memory.definitions) {terms : List String}
    (hterms : Bracketed terms) (stack : List Int) :
    (∀ m', Reaches (m.load terms stack) m' →
      (m'.phase ≠ .failed →
        Bracketed m'.memory.pending ∧ BracketedTable m'.memory.definitions) ∧
      ∀ fault, m'.error = some fault → ¬ fault.IsStructural) ∧
    ∀ fault last, run (m.load terms stack) = .error (.fault fault) last →
      ¬ fault.IsStructural := by
  have hmild : RaisesOnly σ Raised.IsMild :=
    hworld.mono fun raised hraised fault hfault => absurd hfault (hraised fault)
  have hunhosted : (m.load terms stack).Unhosted := hm
  have hreached : ∀ m', Reaches (m.load terms stack) m' → m'.Unhosted ∧ m'.Orderly := by
    intro m' hreaches
    refine hreaches.invariant (P := fun m' => m'.Unhosted ∧ m'.Orderly) ?_
      ⟨hunhosted, load_orderly htable hterms stack⟩
    rintro between ⟨hbetween, horderly⟩
    exact ⟨(step_sameSetup hbetween).unhosted hbetween, step_orderly hmild hbetween horderly⟩
  refine ⟨?_, ?_⟩
  · intro m' hreaches
    obtain ⟨-, horderly⟩ := hreached m' hreaches
    refine ⟨fun hphase => ?_, horderly.error⟩
    exact ⟨(horderly.memory hphase).pending, (horderly.memory hphase).definitions⟩
  · intro fault last hrun
    have hreaches := reaches_run (m.load terms stack)
    rw [hrun] at hreaches
    exact (hreached last hreaches).2.error fault (error_of_run hunhosted hrun)

theorem raisesOnly_plane : RaisesOnly Plane fun raised => ∀ fault, raised ≠ .fault fault := by
  refine ⟨?_, ?_, ?_, ?_, ?_⟩
  · intro direction plane raised hraised
    change (Plane.move direction plane).result = .error raised at hraised
    unfold Plane.move at hraised
    simp only at hraised
    split at hraised
    · split at hraised
      · cases hraised
      · cases hraised
        intro fault hfault
        cases hfault
    · cases hraised
  · intro cell plane raised hraised
    cases hraised
  · intro plane raised hraised
    cases hraised
  · intro stack plane raised hraised
    cases hraised
  · intro steps plane raised hraised
    cases hraised

/-- The operand of the `PUSH` in the body stands behind the block that the body is put into. -/
theorem run_bracketed_operand :
    Bracketed ["DEF", "P", "PUSH", "END", "PUSH", "1", "IF", "P", "ELSE", "UP", "END", "5"] ∧
    valueOf (run ((plain ({} : Plane) 9).load
      ["DEF", "P", "PUSH", "END", "PUSH", "1", "IF", "P", "ELSE", "UP", "END", "5"] [])) =
        some [5] ∧
    ∀ m', Reaches ((plain ({} : Plane) 9).load
        ["DEF", "P", "PUSH", "END", "PUSH", "1", "IF", "P", "ELSE", "UP", "END", "5"] []) m' →
      m'.phase ≠ .failed → Bracketed m'.memory.pending := by
  have hone : ∀ {term : String}, term ∉ delimiters → Bracketed [term] := fun h => .term h .nil
  have hbranch : Bracketed ["IF", "P", "ELSE", "UP", "END", "5"] :=
    .branchElse (hone (by decide)) (hone (by decide)) (hone (by decide))
  have hterms : Bracketed
      ["DEF", "P", "PUSH", "END", "PUSH", "1", "IF", "P", "ELSE", "UP", "END", "5"] :=
    .define (by decide) (hone (by decide)) (.term (by decide) (.term (by decide) hbranch))
  have hunhosted : (plain ({} : Plane) 9).Unhosted := catalogue_unhosted rfl
  have htable : BracketedTable (plain ({} : Plane) 9).memory.definitions := by
    intro definition hmem
    cases hmem
  refine ⟨hterms, by decide +kernel, ?_⟩
  intro m' hreaches hphase
  exact (((run_bracketed raisesOnly_plane hunhosted htable hterms []).1 m' hreaches).1 hphase).1

end Machine

end StackRover
