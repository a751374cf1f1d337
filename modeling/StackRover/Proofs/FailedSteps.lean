import StackRover.Proofs.Conclusion
import StackRover.Proofs.FaultOrigins

/-!
# What a failed step leaves

A step can fail at five places: its term names nothing, the stack is not deep enough, the effect of
the term raises something, one of the notifications does, or the count has passed the limit. Nothing
is undone, so what is left depends on how far the step has come. This module says for each place
what the run is left with, part by part.

* `Builtin.Fails.leaves`: what a built-in operation that fails has taken from the stack and from the
  program.
* `Machine.FailedOn`: a failed run, with the memory and the count that are left.
* `Machine.FailsAfter`: how a step fails whose effect is done.
* `Machine.FailedStep`, `Machine.step_failedStep`: how a step fails.
-/

namespace StackRover

variable {σ : Type}

/-! ## Requests to the world -/

/-- The second memory is the first with another world, and with another journal. -/
def Memory.OnlyOutside (m m' : Memory σ) : Prop :=
  m' = { m with world := m'.world, journal := m'.journal }

theorem Memory.OnlyOutside.trans {a b c : Memory σ} (h : a.OnlyOutside b) (h' : b.OnlyOutside c) :
    a.OnlyOutside c := by
  unfold OnlyOutside at *
  rw [h', h]

theorem Task.ask_onlyOutside {α : Type} (request : σ → Reply σ α) (m : Memory σ) :
    m.OnlyOutside (stateOf (Task.ask request m)) := by
  simp only [Task.ask]
  cases (request m.world).result <;> rfl

theorem Builtin.inspect_onlyOutside [World σ] {direction : Direction} {m m' : Memory σ}
    {raised : Raised} (h : inspect direction m = .error raised m') : m.OnlyOutside m' := by
  -- The world is asked for the position, then for the object next to it; either may fail.
  have hposition := Task.ask_onlyOutside (fun world : σ => World.position world) m
  unfold inspect at h
  rw [bind_apply] at h
  cases hhere : Task.ask (fun world : σ => World.position world) m with
  | error raised' after =>
    rw [hhere] at h hposition
    cases h
    exact hposition
  | ok here after =>
    rw [hhere] at h hposition
    have hlook := Task.ask_onlyOutside (World.lookAt (here.toward direction)) after
    simp only [bind_apply] at h
    cases hobject : Task.ask (World.lookAt (here.toward direction)) after with
    | error raised' last =>
      rw [hobject] at h hlook
      cases h
      exact hposition.trans hlook
    | ok object last =>
      rw [hobject] at h hlook
      simp only at h
      cases hcode : object.code? with
      | some code =>
        rw [hcode] at h
        cases h
      | none =>
        rw [hcode] at h
        cases h
        exact hposition.trans hlook

/-! ## Built-in operations that fail -/

namespace Builtin

/-- Whether the operation can fail on a stack that is deep enough for it. -/
def canFail : Builtin → Bool
  | pop | dup | swap | rot3 | add | sub | mul => false
  | push | div | mod | rand | branch | define | move | go _ | look => true

/-- How many values the operation has taken from the stack when it fails. -/
def withdrawn : Builtin → Nat
  | rand => 2
  | move | look => 1
  | _ => 0

/-- How many terms behind its own the operation has taken from the program when it fails, if there
are so many. -/
def operands : Builtin → Nat
  | push | define => 1
  | _ => 0

/-- Whether the operation asks the world for something. -/
def asksWorld : Builtin → Bool
  | move | go _ | look => true
  | _ => false

/-- What a built-in operation that fails leaves. -/
theorem Fails.leaves [World σ] {builtin : Builtin} {m m' : Memory σ} {raised : Raised}
    (h : builtin.Fails m raised m') :
    builtin.canFail = true ∧
    ({ m with
        stack := m.stack.drop builtin.withdrawn
        pending := m.pending.drop builtin.operands } : Memory σ).OnlyOutside m' ∧
    (builtin.asksWorld = false → m'.world = m.world) := by
  obtain ⟨values, pending, definitions, dice, world, journal⟩ := m
  cases h with
  | pushNothing hpending | defineNothing hpending =>
    cases hpending
    exact ⟨rfl, rfl, fun _ => rfl⟩
  | pushOperand hpending _ | defineBlock hpending _ =>
    cases hpending
    exact ⟨rfl, rfl, fun _ => rfl⟩
  | divide hdivides _ =>
    rcases hdivides with rfl | rfl
    · exact ⟨rfl, rfl, fun _ => rfl⟩
    · exact ⟨rfl, rfl, fun _ => rfl⟩
  | roll hstack _ =>
    cases hstack
    exact ⟨rfl, rfl, fun _ => rfl⟩
  | branch _ => exact ⟨rfl, rfl, fun _ => rfl⟩
  | go hask =>
    refine ⟨rfl, ?_, nofun⟩
    rw [← stateOf_error raised m', ← hask]
    exact Task.ask_onlyOutside _ _
  | move hstack hask =>
    cases hstack
    refine ⟨rfl, ?_, nofun⟩
    rw [← stateOf_error raised m', ← hask]
    exact Task.ask_onlyOutside _ _
  | look hstack hinspect =>
    cases hstack
    exact ⟨rfl, inspect_onlyOutside hinspect, nofun⟩

end Builtin

namespace Machine

variable {m last : Machine σ}

/-! ## Terms that fail and terms that are done -/

theorem perform_of_effectOf [World σ] {name : String} {rest : List String} {builtin : Builtin}
    {raised : Raised} {memory : Memory σ} (hmeaning : m.meaning? name = some (.builtin builtin))
    (hdepth : builtin.minDepth ≤ m.memory.stack.length)
    (h : m.effectOf name rest = .error raised memory) :
    builtin.perform (m.taken name rest) = .error raised memory := by
  unfold effectOf at h
  simp only [hmeaning] at h
  have hdepth' : (Meaning.builtin builtin).minDepth ≤ m.memory.stack.length := hdepth
  rw [if_pos hdepth'] at h
  simp only [Meaning.task] at h
  cases hperform : builtin.perform (m.taken name rest) with
  | ok _ after =>
    rw [hperform] at h
    cases h
  | error raised' after =>
    rw [hperform] at h
    cases h
    rfl

/-- An effect that is done is that of what the term names. -/
theorem effectOf_ok [World σ] (hm : m.Unhosted) {name : String} {rest : List String}
    {category : Category} {memory : Memory σ} (h : m.effectOf name rest = .ok category memory) :
    ∃ entry, m.resolve name = some entry ∧ entry.minDepth ≤ m.memory.stack.length ∧
      ∀ again, entry.perform again { m with memory := m.taken name rest } =
        .ok () { m with memory := memory } := by
  unfold effectOf at h
  cases hmeaning : m.meaning? name with
  | none =>
    rw [hmeaning] at h
    cases h
  | some meaning =>
    simp only [hmeaning] at h
    by_cases hdepth : meaning.minDepth ≤ m.memory.stack.length
    · rw [if_pos hdepth] at h
      refine ⟨meaning.entry name, ?_, ?_, fun again => ?_⟩
      · rw [resolve_unhosted hm, hmeaning, Option.map_some]
      · rw [entry_minDepth]
        exact Int.ofNat_le.mpr hdepth
      · rw [entry_perform]
        unfold Run.within
        cases htask : meaning.task (m.taken name rest) with
        | ok _ after =>
          rw [htask] at h
          cases h
          rfl
        | error raised after =>
          rw [htask] at h
          cases h
    · rw [if_neg hdepth] at h
      cases h

/-! ## Failed runs -/

/-- The run has failed with the fault. It is left with the given memory, apart from the journal, and
with the given count; all else is as it was. -/
def FailedOn (m : Machine σ) (memory : Memory σ) (steps : Nat) (fault : Fault)
    (last : Machine σ) : Prop :=
  last =
    { m with
      memory := { memory with journal := last.memory.journal }
      steps := steps
      error := some fault
      phase := .failed }

theorem settle_failedOn {raised : Raised} {memory : Memory σ} {steps : Nat}
    (h : settle raised { m with memory := memory, steps := steps, phase := .running } =
      .ok .failed last) :
    ∃ fault, raised.ending? = some fault ∧ m.FailedOn memory steps fault last := by
  unfold settle at h
  cases hending : raised.ending? with
  | none =>
    rw [hending] at h
    cases h
  | some fault =>
    rw [hending] at h
    cases h
    exact ⟨fault, rfl, rfl⟩

theorem FailedOn.of_onlyOutside {memory memory' : Memory σ} {steps : Nat} {fault : Fault}
    (h : m.FailedOn memory' steps fault last) (houtside : memory.OnlyOutside memory') :
    m.FailedOn { memory with world := memory'.world } steps fault last := by
  unfold FailedOn at *
  unfold Memory.OnlyOutside at houtside
  rw [houtside] at h
  exact h

/-- How a step fails once the effect of its term is done and has left the memory. -/
inductive FailsAfter [World σ] (m : Machine σ) (memory : Memory σ) (last : Machine σ) :
    Fault → Prop
  /-- The notification of the stack raises something. The term is not counted. -/
  | stackNotice {told : Reply σ Unit} {raised : Raised} {fault : Fault}
      (htold : told = World.stackChanged memory.stack memory.world)
      (hraised : told.result = .error raised) (hends : raised.ending? = some fault)
      (hlast : m.FailedOn { memory with world := told.world } m.steps fault last) :
      FailsAfter m memory last fault
  /-- The notification of the count raises something. The term is counted. -/
  | stepNotice {told counted : Reply σ Unit} {raised : Raised} {fault : Fault}
      (htold : told = World.stackChanged memory.stack memory.world) (hquiet : told.result = .ok ())
      (hcounted : counted = World.stepped (m.steps + 1) told.world)
      (hraised : counted.result = .error raised) (hends : raised.ending? = some fault)
      (hlast : m.FailedOn { memory with world := counted.world } (m.steps + 1) fault last) :
      FailsAfter m memory last fault
  /-- The count has passed the limit. -/
  | limit {told counted : Reply σ Unit} {fault : Fault}
      (htold : told = World.stackChanged memory.stack memory.world) (hquiet : told.result = .ok ())
      (hcounted : counted = World.stepped (m.steps + 1) told.world)
      (hquiet' : counted.result = .ok ()) (hlimit : m.maxSteps < ((m.steps + 1 : Nat) : Int))
      (hends : (Raised.ofFault (.programTooLong m.maxSteps)).ending? = some fault)
      (hlast : m.FailedOn { memory with world := counted.world } (m.steps + 1) fault last) :
      FailsAfter m memory last fault

/-- A failed step was failed by the effect of its term, or after it. -/
theorem wrapUp_failed [World σ] {effect : EStateM.Result Raised (Memory σ) Category}
    (h : m.wrapUp effect = .ok .failed last) :
    (∃ raised memory fault, effect = .error raised memory ∧ raised.ending? = some fault ∧
      m.FailedOn memory m.steps fault last) ∨
    ∃ category memory fault, effect = .ok category memory ∧ m.FailsAfter memory last fault := by
  unfold wrapUp at h
  cases effect with
  | error raised memory =>
    obtain ⟨fault, hends, hlast⟩ := settle_failedOn h
    exact Or.inl ⟨raised, memory, fault, rfl, hends, hlast⟩
  | ok category memory =>
    refine Or.inr ⟨category, memory, ?_⟩
    simp only [Task.ask] at h
    cases htold : (World.stackChanged memory.stack memory.world).result with
    | error raised =>
      simp only [htold] at h
      obtain ⟨fault, hends, hlast⟩ := settle_failedOn h
      exact ⟨fault, rfl, .stackNotice rfl htold hends hlast⟩
    | ok _ =>
      simp only [htold] at h
      cases hcounted : (World.stepped (m.steps + 1)
          (World.stackChanged memory.stack memory.world).world).result with
      | error raised =>
        simp only [hcounted] at h
        obtain ⟨fault, hends, hlast⟩ := settle_failedOn h
        exact ⟨fault, rfl, .stepNotice rfl htold rfl hcounted hends hlast⟩
      | ok _ =>
        simp only [hcounted] at h
        by_cases hlimit : m.maxSteps < ((m.steps + 1 : Nat) : Int)
        · rw [if_pos hlimit] at h
          obtain ⟨fault, hends, hlast⟩ := settle_failedOn h
          exact ⟨fault, rfl, .limit rfl htold rfl hcounted hlimit hends hlast⟩
        · -- Within the limit the step goes on.
          rw [if_neg hlimit] at h
          obtain ⟨hprogress, -⟩ := EStateM.Result.ok.inj h
          have hgoes := Category.goesOn_progress category
          rw [hprogress] at hgoes
          cases hgoes

/-! ## Failed steps -/

/-- How a step fails at the term `name` before the terms `rest`, and what it leaves. -/
inductive FailedStep [World σ] (m : Machine σ) (name : String) (rest : List String)
    (last : Machine σ) : Fault → Prop
  /-- The term names nothing. -/
  | unknown (hresolve : m.resolve name = none)
      (hlast : m.FailedOn m.memory m.steps (.unknownInstruction name) last) :
      FailedStep m name rest last (.unknownInstruction name)
  /-- The stack is not deep enough for the term. -/
  | shallow {entry : Entry} (hresolve : m.resolve name = some entry)
      (hdepth : (m.memory.stack.length : Int) < entry.minDepth)
      (hlast : m.FailedOn m.memory m.steps
        (.stackUnderflow name entry.minDepth m.memory.stack.length) last) :
      FailedStep m name rest last (.stackUnderflow name entry.minDepth m.memory.stack.length)
  /-- The effect of a built-in operation raises something. The term is gone, and what the operation
  had taken until then. -/
  | effect {builtin : Builtin} {raised : Raised} {memory : Memory σ} {fault : Fault}
      (hresolve : m.resolve name = some (.operation builtin.operation))
      (hdepth : builtin.minDepth ≤ m.memory.stack.length)
      (hperform : builtin.perform (m.taken name rest) = .error raised memory)
      (hends : raised.ending? = some fault) (hcan : builtin.canFail = true)
      (hworld : builtin.asksWorld = false → memory.world = m.memory.world)
      (hlast : m.FailedOn
        { m.memory with
          stack := m.memory.stack.drop builtin.withdrawn
          pending := rest.drop builtin.operands
          world := memory.world } m.steps fault last) :
      FailedStep m name rest last fault
  /-- The effect of what the term names is done in full, and the step fails after it. -/
  | after {entry : Entry} {memory : Memory σ} {fault : Fault}
      (hresolve : m.resolve name = some entry) (hdepth : entry.minDepth ≤ m.memory.stack.length)
      (hperform : ∀ again, entry.perform again { m with memory := m.taken name rest } =
        .ok () { m with memory := memory })
      (hafter : m.FailsAfter memory last fault) : FailedStep m name rest last fault

/-- A term that is rejected fails the step before its effect, or in it. -/
theorem failedStep_of_effectOf [World σ] (hm : m.Unhosted) {name : String} {rest : List String}
    {raised : Raised} {memory : Memory σ} {fault : Fault}
    (heffect : m.effectOf name rest = .error raised memory) (hends : raised.ending? = some fault)
    (hlast : m.FailedOn memory m.steps fault last) : m.FailedStep name rest last fault := by
  have hresolve := resolve_unhosted hm name
  cases effectOf_rejects heffect with
  | unknown hmeaning =>
    rw [hmeaning] at hresolve
    cases hends
    exact .unknown hresolve hlast
  | @shallow meaning hmeaning hdepth =>
    rw [hmeaning, Option.map_some] at hresolve
    cases hends
    have hfailed : m.FailedOn m.memory m.steps
        (.stackUnderflow name meaning.minDepth m.memory.stack.length) last := hlast
    rw [← entry_minDepth name] at hfailed ⊢
    refine .shallow hresolve ?_ hfailed
    rw [entry_minDepth]
    exact Int.ofNat_lt.mpr hdepth
  | @builtin builtin _ _ hmeaning hdepth hfails =>
    rw [hmeaning, Option.map_some] at hresolve
    have hperform := perform_of_effectOf hmeaning hdepth heffect
    obtain ⟨hcan, houtside, hworld⟩ := hfails.leaves
    exact .effect hresolve hdepth hperform hends hcan hworld (hlast.of_onlyOutside houtside)

/-- **A failed step leaves what it had come to.** Take a machine without host operations in any
world, whose run is running or suspended, and let a step of it fail. If the next term names nothing,
or the stack is not deep enough for it, then the stack, the program with the term in front, the
definitions, the count and the world are as they were. If the effect of a built-in operation raises
something, then the definitions and the count are as they were; the term is gone, with the operand
of a `PUSH` and the name of a `DEF` if there is one, and no other; and the stack has lost its top
two values for `RAND`, its top value for `MOVE` and `LOOK`, and nothing for all others. If a
notification raises something, or the count has passed the limit, then the effect of the term is
done in full. -/
theorem step_failedStep [World σ] (hm : m.Unhosted) (hlive : m.phase.isFinal = false)
    (h : step m = .ok .failed last) :
    ∃ name rest fault, m.memory.pending = name :: rest ∧ m.FailedStep name rest last fault := by
  cases hpending : m.memory.pending with
  | nil =>
    rw [step_end hlive hpending] at h
    cases h
  | cons name rest =>
    rw [step_wrapUp hm hlive hpending] at h
    rcases wrapUp_failed h with ⟨raised, memory, fault, heffect, hends, hlast⟩ |
      ⟨category, memory, fault, heffect, hafter⟩
    · exact ⟨name, rest, fault, rfl, failedStep_of_effectOf hm heffect hends hlast⟩
    · obtain ⟨entry, hresolve, hdepth, hperform⟩ := effectOf_ok hm heffect
      exact ⟨name, rest, fault, rfl, .after hresolve hdepth hperform hafter⟩

/-- A range with nothing in it: the two bounds are gone, and so is the term. -/
theorem step_failedStep_roll :
    ∃ last, step ((plain ({} : Void) 99).load ["RAND", "DUP"] [1, 5, 7]) = .ok .failed last ∧
      last.memory.stack = [7] ∧ last.memory.pending = ["DUP"] ∧ last.steps = 0 ∧
      last.error = some (.invalidRange 5 1) := by
  have hfailed : valueOf (step ((plain ({} : Void) 99).load ["RAND", "DUP"] [1, 5, 7])) =
      some .failed := by
    decide +kernel
  have hmeans : ((plain ({} : Void) 99).load ["RAND", "DUP"] [1, 5, 7]).resolve "RAND" =
      some (.operation Builtin.rand.operation) := rfl
  have hwritable : (Fault.invalidRange 5 1).isWritable = true := by decide +kernel
  refine ⟨_, eq_ok_of_valueOf hfailed, ?_⟩
  obtain ⟨name, rest, fault, hpending, hleft⟩ := step_failedStep
    (m := (plain ({} : Void) 99).load ["RAND", "DUP"] [1, 5, 7]) (catalogue_unhosted rfl) rfl
    (eq_ok_of_valueOf hfailed)
  cases hpending
  cases hleft with
  | unknown hresolve => cases hmeans.symm.trans hresolve
  | shallow hresolve hdepth =>
    cases hmeans.symm.trans hresolve
    exact absurd hdepth (by decide)
  | after hresolve _ hperform =>
    cases hmeans.symm.trans hresolve
    cases hperform step
  | effect hresolve _ hperform hends _ _ hlast =>
    have hentry := Entry.operation.inj (Option.some.inj (hmeans.symm.trans hresolve))
    cases Effect.builtin.inj (congrArg Operation.effect hentry)
    obtain ⟨hraised, -⟩ := EStateM.Result.error.inj hperform
    rw [← hraised, Raised.ofFault_of_isWritable hwritable] at hends
    cases hends
    rw [hlast]
    exact ⟨rfl, rfl, rfl, rfl⟩

end Machine

end StackRover
