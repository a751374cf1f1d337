import StackRover.Proofs.Courses
import StackRover.Proofs.Traces

/-!
# Notifications

After every term the machine tells the world of the stack and then of the count. A term that fails
is not told, and a notification that raises something ends the run. So as long as none does, the
world has been told of exactly the terms that were counted, one after the other, each with the stack
that it left.

* `Told`: the notifications of so many terms, among the requests of these terms.
* `step_told`, `Proceeds.told`: one step, and all that a host does after it has loaded a program.
* `Notifies`: which notifications a step sends, by the way in which it fails.
* `serve_notifies`: the whole trace.
-/

namespace StackRover

variable {σ : Type}

/-- The count that a notification tells. -/
def Exchange.count? (exchange : Exchange) : Option Nat :=
  match exchange.call with
  | .stepped steps => some steps
  | _ => none

/-- From the given count on, the world has been told of one term after the other: each time of the
stack that the term left, and at once after that of the count. All else that it heard are requests.
-/
inductive Told : Nat → List (List Int) → List Exchange → Prop
  | nothing {count : Nat} {requests : List Exchange}
      (hrequests : ∀ exchange ∈ requests, exchange.call.isNotice = false) : Told count [] requests
  | term {count : Nat} {stack : List Int} {outcomes : List (List Int)}
      {requests later : List Exchange}
      (hrequests : ∀ exchange ∈ requests, exchange.call.isNotice = false)
      (hlater : Told (count + 1) outcomes later) :
      Told count (stack :: outcomes)
        (requests ++ ⟨.stackChanged stack, none⟩ :: ⟨.stepped (count + 1), none⟩ :: later)

namespace Told

variable {count : Nat} {outcomes outcomes' : List (List Int)}
  {heard heard' requests : List Exchange}

theorem prepend (hrequests : ∀ exchange ∈ requests, exchange.call.isNotice = false)
    (h : Told count outcomes heard) : Told count outcomes (requests ++ heard) := by
  have happend : ∀ {more : List Exchange}, (∀ exchange ∈ more, exchange.call.isNotice = false) →
      ∀ exchange ∈ requests ++ more, exchange.call.isNotice = false := by
    intro more hmore exchange hmem
    rcases List.mem_append.mp hmem with hfirst | hsecond
    · exact hrequests exchange hfirst
    · exact hmore exchange hsecond
  cases h with
  | nothing hmore => exact .nothing (happend hmore)
  | term hmore hlater =>
    rw [← List.append_assoc]
    exact .term (happend hmore) hlater

theorem append (h : Told count outcomes heard)
    (h' : Told (count + outcomes.length) outcomes' heard') :
    Told count (outcomes ++ outcomes') (heard ++ heard') := by
  induction h with
  | nothing hrequests => exact h'.prepend hrequests
  | @term count stack outcomes requests later hrequests _ ih =>
    rw [List.append_assoc]
    refine .term hrequests (ih ?_)
    rw [List.length_cons] at h'
    rw [Nat.add_right_comm]
    exact h'

/-- The counts that were told. -/
theorem counts (h : Told count outcomes heard) :
    heard.filterMap Exchange.count? = List.range' (count + 1) outcomes.length := by
  have hnone : ∀ {requests : List Exchange},
      (∀ exchange ∈ requests, exchange.call.isNotice = false) →
      requests.filterMap Exchange.count? = [] := by
    intro requests hrequests
    refine List.filterMap_eq_nil_iff.mpr fun exchange hmem => ?_
    have hnotice := hrequests exchange hmem
    unfold Exchange.count?
    cases hcall : exchange.call with
    | stepped steps =>
      rw [hcall] at hnotice
      cases hnotice
    | move | lookAt | position | stackChanged => rfl
  induction h with
  | nothing hrequests => exact hnone hrequests
  | @term count stack outcomes requests later hrequests _ ih =>
    have hstack : Exchange.count? ⟨.stackChanged stack, none⟩ = none := rfl
    have hcount : Exchange.count? ⟨.stepped (count + 1), none⟩ = some (count + 1) := rfl
    rw [List.filterMap_append, hnone hrequests, List.nil_append, List.filterMap_cons_none hstack,
      List.filterMap_cons_some hcount, ih, List.length_cons, List.range'_succ]

end Told

/-- Whether the call neither starts a new run nor adds an operation. -/
def HostCall.carriesOn : HostCall → Bool
  | load .. | execute .. | add _ => false
  | step _ | advance | run | define .. | forget | splice _ | take _ => true

namespace Machine

theorem settle_programTooLong {raised : Raised} {m : Machine σ} {limit : Int}
    (hfailed : valueOf (settle raised m) = some .failed)
    (herror : (stateOf (settle raised m)).error = some (.programTooLong limit)) :
    raised = .fault (.programTooLong limit) := by
  cases raised with
  | fault fault =>
    cases herror
    rfl
  | failure failure => cases herror
  | interrupt | exhausted => cases hfailed

variable [World σ] {m : Machine (Traced σ)}

/-! ## One step -/

/-- The stack that the effect of the next term leaves, if it succeeds. -/
def performed (m : Machine σ) : List (List Int) :=
  if m.phase.isFinal then []
  else
    match m.memory.pending with
    | [] => []
    | name :: rest =>
      match m.effectOf name rest with
      | .ok _ memory => [memory.stack]
      | .error .. => []

theorem performed_idle {m : Machine σ} (hidle : m.phase.isFinal = true ∨ m.memory.pending = []) :
    m.performed = [] := by
  unfold performed
  rcases hidle with hfinal | hpending
  · rw [if_pos hfinal]
  · rw [hpending]
    split <;> rfl

theorem performed_ok {m : Machine σ} (hlive : m.phase.isFinal = false) {name : String}
    {rest : List String} (hpending : m.memory.pending = name :: rest) {category : Category}
    {memory : Memory σ} (heffect : m.effectOf name rest = .ok category memory) :
    m.performed = [memory.stack] := by
  unfold performed
  rw [hlive, hpending]
  simp [heffect]

theorem performed_error {m : Machine σ} (hlive : m.phase.isFinal = false) {name : String}
    {rest : List String} (hpending : m.memory.pending = name :: rest) {raised : Raised}
    {memory : Memory σ} (heffect : m.effectOf name rest = .error raised memory) :
    m.performed = [] := by
  unfold performed
  rw [hlive, hpending]
  simp [heffect]

/-- As long as no notification raises anything, a step tells of its term if the effect succeeds. -/
theorem step_told (hm : m.Unhosted) :
    ∃ said, m.memory.Hears said (stateOf (step m)).memory ∧
      ((∀ exchange ∈ said, exchange.call.isNotice = true → exchange.raised = none) →
        Told m.steps m.performed said ∧
        (stateOf (step m)).steps = m.steps + m.performed.length) := by
  rcases idle_or_term m with hidle | ⟨name, rest, hlive, hpending⟩
  · obtain ⟨progress, last, hstep, -, -, -, hworld, hsteps⟩ := step_idle hidle
    rw [hstep, performed_idle hidle]
    refine ⟨[], .of_world hworld, fun _ => ?_⟩
    refine ⟨.nothing fun exchange hmem => ?_, hsteps⟩
    cases hmem
  · obtain ⟨requests, notices, hasks, hspeaks, hhears⟩ := step_speaks hm hlive hpending
    refine ⟨requests ++ notices, hhears, fun hquiet => ?_⟩
    generalize heffect : m.effectOf name rest = effect at hspeaks
    generalize step m = result at hspeaks
    cases hspeaks with
    | refused raised memory =>
      rw [performed_error hlive hpending heffect, List.append_nil]
      exact ⟨.nothing hasks.notices, settle_steps _ _⟩
    | untold category memory told raised _ =>
      have hnone := hquiet _ (List.mem_append_right _ (List.mem_singleton_self _)) rfl
      cases hnone
    | uncounted category memory counted raised _ =>
      have hnone := hquiet ⟨.stepped (m.steps + 1), some raised⟩ (by simp) rfl
      cases hnone
    | overran category memory counted _ _ =>
      rw [performed_ok hlive hpending heffect]
      refine ⟨.term hasks.notices (.nothing fun exchange hmem => ?_), settle_steps _ _⟩
      cases hmem
    | counted category memory counted _ _ =>
      rw [performed_ok hlive hpending heffect]
      refine ⟨.term hasks.notices (.nothing fun exchange hmem => ?_), rfl⟩
      cases hmem

/-! ## All that a host does -/

/-- By steps, and by other pending terms and definitions between them, the host comes from the one
machine to the other. The stacks are those that the effects of the terms have left, as far as these
succeeded. -/
inductive Proceeds (start : Machine σ) : List (List Int) → Machine σ → Prop
  | refl : Proceeds start [] start
  | step {outcomes : List (List Int)} {m : Machine σ} (h : Proceeds start outcomes m) :
      Proceeds start (outcomes ++ m.performed) (stateOf (Machine.step m))
  | edit {outcomes : List (List Int)} {m : Machine σ} (h : Proceeds start outcomes m)
      (pending : List String) (definitions : Lexicon Definition) (journal : List Event) :
      Proceeds start outcomes (m.edited pending definitions journal)

theorem Proceeds.reaches {start m m' : Machine σ} {outcomes : List (List Int)}
    (h : Proceeds start outcomes m) (hreaches : Reaches m m') :
    ∃ outcomes', Proceeds start outcomes' m' := by
  induction hreaches with
  | refl => exact ⟨outcomes, h⟩
  | tail _ hnext ih =>
    obtain ⟨outcomes', h'⟩ := ih
    rw [← hnext]
    exact ⟨_, h'.step⟩

theorem Proceeds.sameSetup {start m : Machine σ} (hstart : start.Unhosted)
    {outcomes : List (List Int)} (h : Proceeds start outcomes m) : SameSetup start m := by
  induction h with
  | refl => exact ⟨rfl, rfl, rfl⟩
  | step _ ih => exact ih.trans (step_sameSetup (ih.unhosted hstart))
  | edit _ _ _ _ ih => exact ih.trans ⟨rfl, rfl, rfl⟩

/-- As long as no notification raises anything, the world has been told of all terms that succeeded,
and these are the terms that were counted. -/
theorem Proceeds.told {start : Machine (Traced σ)} (hstart : start.Unhosted)
    {outcomes : List (List Int)} (h : Proceeds start outcomes m) :
    ∃ heard, start.memory.Hears heard m.memory ∧
      ((∀ exchange ∈ heard, exchange.call.isNotice = true → exchange.raised = none) →
        Told start.steps outcomes heard ∧ m.steps = start.steps + outcomes.length) := by
  induction h with
  | refl =>
    refine ⟨[], .of_world rfl, fun _ => ⟨.nothing fun exchange hmem => ?_, rfl⟩⟩
    cases hmem
  | edit _ pending definitions journal ih => exact ih
  | @step outcomes m h ih =>
    obtain ⟨heard, hhears, htold⟩ := ih
    obtain ⟨said, hsaid, hstep⟩ := step_told ((h.sameSetup hstart).unhosted hstart)
    refine ⟨heard ++ said, hhears.trans hsaid, fun hquiet => ?_⟩
    obtain ⟨hbefore, hsteps⟩ := htold fun exchange hmem =>
      hquiet exchange (List.mem_append_left _ hmem)
    obtain ⟨hnow, hsteps'⟩ := hstep fun exchange hmem =>
      hquiet exchange (List.mem_append_right _ hmem)
    rw [hsteps] at hnow
    refine ⟨hbefore.append hnow, ?_⟩
    rw [hsteps', hsteps, List.length_append]
    omega

theorem serve_proceeds {start : Machine σ} (hstart : start.Unhosted) {calls : List HostCall}
    (hcalls : ∀ call ∈ calls, call.carriesOn = true) :
    ∃ outcomes, Proceeds start outcomes (start.serve calls) := by
  refine serve_keeps (P := fun machine => ∃ outcomes, Proceeds start outcomes machine)
    (fun call hmem machine hmachine => ?_) ⟨[], .refl⟩
  obtain ⟨outcomes, h⟩ := hmachine
  have hcarries := hcalls call hmem
  have hloads : call.loads = false := by
    cases call with
    | load | execute | add => cases hcarries
    | step | advance | run | define | forget | splice | take => rfl
  rcases HostCall.perform_cases hloads machine with
    ⟨depth, hstep⟩ | hreaches | ⟨pending, definitions, journal, hedit⟩ | ⟨extension, rfl, -⟩
  · have hunhosted := (h.sameSetup hstart).unhosted hstart
    rw [hstep, hunhosted.stepFree.stepAt_eq]
    exact ⟨_, h.step⟩
  · exact h.reaches hreaches
  · rw [hedit]
    exact ⟨_, h.edit pending definitions journal⟩
  · cases hcarries

/-! ## Steps that fail -/

/-- The term fails before its effect is done: it names nothing, the stack is not deep enough for it,
or what it names raises something. -/
inductive Balks (m : Machine σ) (name : String) (rest : List String) : Prop
  | unknown (hresolve : m.resolve name = none)
  | shallow {entry : Entry} (hresolve : m.resolve name = some entry)
      (hdepth : ¬ entry.minDepth ≤ m.memory.stack.length)
  | raises {entry : Entry} (hresolve : m.resolve name = some entry)
      (hdepth : entry.minDepth ≤ m.memory.stack.length) {again : Run σ Progress} {raised : Raised}
      {after : Machine σ}
      (hraises : entry.perform again { m with memory := m.taken name rest, phase := .running } =
        .error raised after)

theorem Balks.effectOf_eq {m : Machine σ} (hm : m.Unhosted) {name : String} {rest : List String}
    (h : m.Balks name rest) : ∃ raised memory, m.effectOf name rest = .error raised memory := by
  have hresolve := resolve_unhosted hm name
  unfold effectOf
  cases hmeaning : m.meaning? name with
  | none => exact ⟨_, _, rfl⟩
  | some meaning =>
    rw [hmeaning, Option.map_some] at hresolve
    simp only
    cases h with
    | unknown hnone =>
      rw [hresolve] at hnone
      cases hnone
    | shallow hentry hdepth =>
      rw [hresolve] at hentry
      cases hentry
      rw [entry_minDepth] at hdepth
      have hshallow : ¬ meaning.minDepth ≤ m.memory.stack.length := fun hle =>
        hdepth (Int.ofNat_le.mpr hle)
      rw [if_neg hshallow]
      exact ⟨_, _, rfl⟩
    | raises hentry hdepth hraises =>
      rw [hresolve] at hentry
      cases hentry
      rw [entry_minDepth] at hdepth
      rw [if_pos (Int.ofNat_le.mp hdepth)]
      rw [entry_perform] at hraises
      unfold Run.within at hraises
      simp only at hraises
      cases htask : meaning.task (m.taken name rest) with
      | error raised memory => exact ⟨raised, memory, rfl⟩
      | ok _ memory =>
        rw [htask] at hraises
        cases hraises

section Speaks

variable {effect : EStateM.Result Raised (Memory (Traced σ)) Category}
  {requests notices : List Exchange}
  {result : EStateM.Result Raised (Machine (Traced σ)) Progress}

/-- A step that fails for its limit has sent both notifications, unless the world has raised that
fault. -/
theorem Speaks.overruns {heading? : Option Direction} {limit : Int}
    (hasks : m.memory.Asks heading? requests effect) (h : m.Speaks effect notices result)
    (hfailed : valueOf result = some .failed)
    (herror : (stateOf result).error = some (.programTooLong limit)) :
    (∃ category memory, effect = .ok category memory ∧ (stateOf result).steps = m.steps + 1 ∧
      notices = [⟨.stackChanged memory.stack, none⟩, ⟨.stepped (m.steps + 1), none⟩]) ∨
    ∃ exchange ∈ requests ++ notices, exchange.raised = some (.fault (.programTooLong limit)) := by
  cases h with
  | refused raised memory =>
    have hraised := settle_programTooLong hfailed herror
    rcases hasks.raises raised memory rfl with hordinary | ⟨exchange, hmem, hanswer⟩
    · rw [hraised] at hordinary
      exact absurd hordinary id
    · rw [hraised] at hanswer
      exact Or.inr ⟨exchange, List.mem_append_left _ hmem, hanswer⟩
  | untold category memory told raised _ =>
    rw [settle_programTooLong hfailed herror]
    exact Or.inr ⟨_, List.mem_append_right _ (List.mem_singleton_self _), rfl⟩
  | uncounted category memory counted raised _ =>
    rw [settle_programTooLong hfailed herror]
    refine Or.inr ⟨⟨.stepped (m.steps + 1), some (.fault (.programTooLong limit))⟩, ?_, rfl⟩
    simp
  | overran category memory counted _ _ =>
    exact Or.inl ⟨category, memory, rfl, settle_steps _ _, rfl⟩
  | counted category memory counted _ _ =>
    have hgoes := Category.goesOn_progress category
    rw [Option.some.inj hfailed] at hgoes
    cases hgoes

theorem Speaks.untold_steps {stack : List Int} {raised : Raised}
    (h : m.Speaks effect notices result) (hmem : ⟨.stackChanged stack, some raised⟩ ∈ notices) :
    (stateOf result).steps = m.steps ∧ ∀ steps answer, ⟨.stepped steps, answer⟩ ∉ notices := by
  cases h with
  | refused => cases hmem
  | untold category memory told raised _ =>
    refine ⟨settle_steps _ _, fun steps answer hstepped => ?_⟩
    cases List.mem_singleton.mp hstepped
  | uncounted | overran | counted => simp at hmem

theorem Speaks.uncounted_steps {steps : Nat} {raised : Raised} (h : m.Speaks effect notices result)
    (hmem : ⟨.stepped steps, some raised⟩ ∈ notices) : (stateOf result).steps = m.steps + 1 := by
  cases h with
  | refused => cases hmem
  | untold => simp at hmem
  | uncounted => exact settle_steps _ _
  | overran | counted => simp at hmem

/-- A notification that raises a fault or a failure ends the run. -/
theorem Speaks.failed {exchange : Exchange} {raised : Raised} (h : m.Speaks effect notices result)
    (hmem : exchange ∈ notices) (hraised : exchange.raised = some raised)
    (hends : raised.ending? ≠ none) :
    (stateOf result).phase = .failed := by
  have hsettle : ∀ m' : Machine (Traced σ), (stateOf (settle raised m')).phase = .failed := by
    intro m'
    obtain ⟨fault, hfault⟩ := Option.ne_none_iff_exists'.mp hends
    unfold settle
    rw [hfault]
    rfl
  cases h with
  | refused => cases hmem
  | untold category memory told other _ =>
    rw [List.mem_singleton.mp hmem] at hraised
    cases hraised
    exact hsettle _
  | uncounted category memory counted other _ =>
    rcases List.mem_cons.mp hmem with rfl | hlast
    · cases hraised
    · rw [List.mem_singleton.mp hlast] at hraised
      cases hraised
      exact hsettle _
  | overran | counted =>
    rcases List.mem_cons.mp hmem with rfl | hlast
    · cases hraised
    · rw [List.mem_singleton.mp hlast] at hraised
      cases hraised

end Speaks

/-- Once a run is over, no call says anything to the world until a new run is started. -/
theorem serve_final_world {m : Machine σ} (hfinal : m.phase.isFinal = true) {calls : List HostCall}
    (hcalls : ∀ call ∈ calls, call.loads = false) :
    (m.serve calls).memory.world = m.memory.world := by
  let P : Machine σ → Prop := fun machine =>
    machine.phase.isFinal = true ∧ machine.memory.world = m.memory.world
  have hserve : P (m.serve calls) := by
    refine serve_keeps (P := P) (fun call hmem machine hmachine => ?_) ⟨hfinal, rfl⟩
    rcases HostCall.perform_cases (hcalls call hmem) machine with
      ⟨depth, hstep⟩ | hreaches | ⟨pending, definitions, journal, hedit⟩ | ⟨extension, -, hadd⟩
    · rw [hstep, stepAt, stepWith_final _ hmachine.1]
      exact hmachine
    · refine hreaches.invariant (fun other hother => ?_) hmachine
      rw [step_final hother.1]
      exact hother
    · rw [hedit]
      exact hmachine
    · rw [hadd]
      exact hmachine
  exact hserve.2

/-- The notifications among all that a step says to the world, by the way in which it fails. -/
structure Notifies (m : Machine (Traced σ)) (said : List Exchange) : Prop where
  hears : m.memory.Hears said (stateOf (step m)).memory
  /-- A term that fails before its effect is done is neither told nor counted. -/
  balks : ∀ name rest, m.memory.pending = name :: rest → m.Balks name rest →
    (∀ exchange ∈ said, exchange.call.isNotice = false) ∧ (stateOf (step m)).steps = m.steps
  /-- A term that fails for the limit was told and counted; the world may also have raised that
  fault. -/
  overruns : ∀ limit, m.phase.isFinal = false → valueOf (step m) = some .failed →
    (stateOf (step m)).error = some (.programTooLong limit) →
    (∃ requests stack, m.performed = [stack] ∧ (stateOf (step m)).steps = m.steps + 1 ∧
      said = requests ++ [⟨.stackChanged stack, none⟩, ⟨.stepped (m.steps + 1), none⟩]) ∨
    ∃ exchange ∈ said, exchange.raised = some (.fault (.programTooLong limit))
  /-- If the notification of the stack raises something, the term is not counted. -/
  untold : ∀ stack raised, ⟨.stackChanged stack, some raised⟩ ∈ said →
    (stateOf (step m)).steps = m.steps ∧ ∀ steps answer, ⟨.stepped steps, answer⟩ ∉ said
  /-- If the notification of the count raises something, the term is counted. -/
  uncounted : ∀ steps raised, ⟨.stepped steps, some raised⟩ ∈ said →
    (stateOf (step m)).steps = m.steps + 1
  /-- After a notification that raises a fault or a failure, nothing is said any more. -/
  silent : ∀ exchange ∈ said, exchange.call.isNotice = true →
    ∀ raised, exchange.raised = some raised → raised.ending? ≠ none →
    ∀ later : List HostCall, (∀ call ∈ later, call.loads = false) →
    ((stateOf (step m)).serve later).memory.world = (stateOf (step m)).memory.world

theorem step_notifies (hm : m.Unhosted) : ∃ said, m.Notifies said := by
  rcases idle_or_term m with hidle | ⟨name, rest, hlive, hpending⟩
  · obtain ⟨progress, last, hstep, -, -, -, hworld, hsteps⟩ := step_idle hidle
    have hlast : stateOf (step m) = last := by rw [hstep, stateOf_ok]
    rw [← hlast] at hworld hsteps
    refine ⟨[], .of_world hworld, fun name rest _ _ => ⟨fun exchange hmem => ?_, hsteps⟩,
      fun limit hlive hfailed _ => ?_, fun stack raised hmem => ?_, fun steps raised hmem => ?_,
      fun exchange hmem => ?_⟩
    · cases hmem
    · rcases hidle with hfinal | hpending
      · rw [hlive] at hfinal
        cases hfinal
      · rw [step_end hlive hpending] at hfailed
        cases hfailed
    · cases hmem
    · cases hmem
    · cases hmem
  · obtain ⟨requests, notices, hasks, hspeaks, hhears⟩ := step_speaks hm hlive hpending
    -- Among all that is said, only the notifications notify.
    have hnotice : ∀ {exchange : Exchange}, exchange ∈ requests ++ notices →
        exchange.call.isNotice = true → exchange ∈ notices := by
      intro exchange hmem hnotice
      rcases List.mem_append.mp hmem with hrequest | hmem
      · rw [hasks.notices exchange hrequest] at hnotice
        cases hnotice
      · exact hmem
    refine ⟨requests ++ notices, hhears, fun name' rest' hpending' hbalks => ?_,
      fun limit _ hfailed herror => ?_, fun stack raised hmem => ?_, fun steps raised hmem => ?_,
      fun exchange hmem hcall raised hraised hends later hlater => ?_⟩
    · rw [hpending] at hpending'
      cases hpending'
      obtain ⟨raised, memory, heffect⟩ := hbalks.effectOf_eq hm
      rw [heffect] at hspeaks
      generalize step m = result at hspeaks
      cases hspeaks
      rw [List.append_nil]
      exact ⟨hasks.notices, settle_steps _ _⟩
    · rcases hspeaks.overruns hasks hfailed herror with
        ⟨category, memory, heffect, hsteps, rfl⟩ | hraised
      · exact Or.inl ⟨requests, memory.stack, performed_ok hlive hpending heffect, hsteps, rfl⟩
      · exact Or.inr hraised
    · obtain ⟨hsteps, hnone⟩ := hspeaks.untold_steps (hnotice hmem rfl)
      exact ⟨hsteps, fun steps answer hstepped => hnone steps answer (hnotice hstepped rfl)⟩
    · exact hspeaks.uncounted_steps (hnotice hmem rfl)
    · have hphase := hspeaks.failed (hnotice hmem hcall) hraised hends
      refine serve_final_world ?_ hlater
      rw [hphase]
      rfl

/-! ## The whole trace -/

/-- **The trace of notifications.** A host loads a program into a machine without host operations,
and then steps and drives the run and changes definitions and pending terms as it likes. As long as
no notification has raised anything, the counts that the world was told since are one, two and so on
up to the count of the run, and each was told at once after the stack that the effect of its term
left. What the next step tells depends on how it fails: nothing, if it fails before its effect is
done; both, if it fails for the limit, unless that fault is one that the world has raised; and once
a notification has raised a fault or a failure, nothing is said until the next run. -/
theorem serve_notifies (hm : m.Unhosted) (terms : List String) (stack : List Int)
    {calls : List HostCall} (hcalls : ∀ call ∈ calls, call.carriesOn = true) :
    (∃ outcomes heard, Proceeds (m.load terms stack) outcomes ((m.load terms stack).serve calls) ∧
      m.memory.Hears heard ((m.load terms stack).serve calls).memory ∧
      ((∀ exchange ∈ heard, exchange.call.isNotice = true → exchange.raised = none) →
        Told 0 outcomes heard ∧ outcomes.length = ((m.load terms stack).serve calls).steps ∧
        heard.filterMap Exchange.count? =
          List.range' 1 ((m.load terms stack).serve calls).steps)) ∧
    ∃ said, ((m.load terms stack).serve calls).Notifies said := by
  have hload : (m.load terms stack).Unhosted := (load_sameSetup m terms stack).unhosted hm
  obtain ⟨outcomes, hproceeds⟩ := serve_proceeds hload hcalls
  obtain ⟨heard, hhears, htold⟩ := hproceeds.told hload
  refine ⟨⟨outcomes, heard, hproceeds, hhears, fun hquiet => ?_⟩,
    step_notifies ((hproceeds.sameSetup hload).unhosted hload)⟩
  obtain ⟨htold, hsteps⟩ := htold hquiet
  have hlength : outcomes.length = ((m.load terms stack).serve calls).steps := by
    rw [hsteps]
    exact (Nat.zero_add _).symm
  refine ⟨htold, hlength, ?_⟩
  rw [← hlength]
  exact htold.counts

/-- A recording world that refuses the second count: the first term is told, the second is told and
counted and ends the run, and then the world hears no more. -/
theorem serve_notifies_refusal :
    ∃ m : Machine (Traced Recorder), m.Unhosted ∧
      (∃ outcomes, Told 0 outcomes
        [⟨.move .up, none⟩, ⟨.stackChanged [7], none⟩, ⟨.stepped 1, none⟩] ∧
        outcomes.length = ((m.load ["UP", "DUP", "UP"] [7]).serve [.advance]).steps) ∧
      (stateOf (step ((m.load ["UP", "DUP", "UP"] [7]).serve [.advance]))).steps = 2 ∧
      ((stateOf (step ((m.load ["UP", "DUP", "UP"] [7]).serve [.advance]))).serve
          [.splice ["UP"], .run, .step 0]).memory.world.exchanges =
        [⟨.stepped 2, some (.failure (.host "KeyError" "k"))⟩, ⟨.stackChanged [7, 7], none⟩,
          ⟨.stepped 1, none⟩, ⟨.stackChanged [7], none⟩, ⟨.move .up, none⟩] := by
  let refusing : Recorder :=
    { sabotage := fun
        | .stepped => some ⟨.failure (.host "KeyError" "k"), 2⟩
        | _ => none }
  let m : Machine (Traced Recorder) := plain ⟨refusing, []⟩ 9
  have hunhosted : m.Unhosted := catalogue_unhosted rfl
  have hheard : m.memory.Hears [⟨.move .up, none⟩, ⟨.stackChanged [7], none⟩, ⟨.stepped 1, none⟩]
      ((m.load ["UP", "DUP", "UP"] [7]).serve [.advance]).memory := by
    unfold Memory.Hears
    decide +kernel
  have hone : ((m.load ["UP", "DUP", "UP"] [7]).serve [.advance]).steps = 1 := by decide +kernel
  have hsaid : ((m.load ["UP", "DUP", "UP"] [7]).serve [.advance]).memory.Hears
      [⟨.stackChanged [7, 7], none⟩, ⟨.stepped 2, some (.failure (.host "KeyError" "k"))⟩]
      (stateOf (step ((m.load ["UP", "DUP", "UP"] [7]).serve [.advance]))).memory := by
    unfold Memory.Hears
    decide +kernel
  have hstart : m.memory.world.exchanges = [] := rfl
  -- The machine is kept folded from here on.
  generalize m = m at hunhosted hheard hone hsaid hstart
  have hcalls : ∀ call ∈ [HostCall.advance], call.carriesOn = true := by simp [HostCall.carriesOn]
  obtain ⟨⟨outcomes, heard, -, hheard', htold⟩, said, hnotifies⟩ :=
    serve_notifies hunhosted ["UP", "DUP", "UP"] [7] hcalls
  obtain rfl := hheard'.unique hheard
  obtain rfl := hnotifies.hears.unique hsaid
  obtain ⟨htold, hlength, -⟩ := htold (by simp)
  have htwo := hnotifies.uncounted 2 (.failure (.host "KeyError" "k")) (by simp)
  rw [hone] at htwo
  refine ⟨m, hunhosted, ⟨outcomes, htold, hlength⟩, htwo, ?_⟩
  rw [hnotifies.silent ⟨.stepped 2, some (.failure (.host "KeyError" "k"))⟩ (by simp) rfl _ rfl
    (by decide) [.splice ["UP"], .run, .step 0] (by simp [HostCall.loads]), hsaid, hheard, hstart]
  rfl

end Machine

end StackRover
