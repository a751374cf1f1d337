import StackRover.Proofs.Runs

/-!
# What terms keep and raise

Only `DEF` touches the definitions, only the actions move, and `LOOK` asks where the player is and
what stands on a cell; all else that the built-in operations do stays within the machine: they
change the stack and the pending terms, roll the dice for a proper range, and log. So a property
that lasts through these changes is kept by a step as soon as it is kept by the requests that the
active operations make. Nor do the operations raise anything of their own but failures and faults of
the program: an interrupt comes from the world, and the fault of the limit from the count.

* `Memory.Durable`: what lasts through all that stays within the machine.
* `Builtin.perform_respects`: the built-in operations.
* `Machine.effectOf_respects`: one term.
* `Machine.step_keeps`, `Machine.reaches_keeps`: one step, and every run.
-/

namespace StackRover

variable {σ α β : Type}

/-! ## Computations that keep a property -/

/-- The computation keeps the property of the state, and all that it raises is permitted. -/
structure Respects {ε τ : Type} (P : τ → Prop) (permitted : ε → Prop) (x : EStateM ε τ α) :
    Prop where
  keeps : ∀ t, P t → P (stateOf (x t))
  raises : ∀ t t' e, x t = .error e t' → permitted e

namespace Respects

variable {ε τ : Type} {P : τ → Prop} {permitted : ε → Prop}

theorem bind {x : EStateM ε τ α} {f : α → EStateM ε τ β} (hx : Respects P permitted x)
    (hf : ∀ a, Respects P permitted (f a)) : Respects P permitted (x >>= f) := by
  refine ⟨fun t ht => ?_, fun t t' e => ?_⟩
  · have hfirst := hx.keeps t ht
    rw [bind_apply]
    cases hresult : x t with
    | ok a next =>
      rw [hresult] at hfirst
      exact (hf a).keeps next hfirst
    | error e next =>
      rw [hresult] at hfirst
      exact hfirst
  · rw [bind_apply]
    cases hresult : x t with
    | ok a next => exact (hf a).raises next t' e
    | error e' next =>
      intro herror
      cases herror
      exact hx.raises t t' e hresult

theorem pure (a : α) : Respects P permitted (Pure.pure a : EStateM ε τ α) := by
  refine ⟨fun _ ht => ht, fun _ _ _ h => ?_⟩
  cases h

theorem get : Respects P permitted (MonadState.get : EStateM ε τ τ) := by
  refine ⟨fun _ ht => ht, fun _ _ _ h => ?_⟩
  cases h

theorem throw {e : ε} (he : permitted e) :
    Respects P permitted (MonadExcept.throw e : EStateM ε τ α) := by
  refine ⟨fun _ ht => ht, fun _ _ _ h => ?_⟩
  cases h
  exact he

theorem change {f : τ → τ} (hf : ∀ t, P t → P (f t)) :
    Respects P permitted (modify f : EStateM ε τ PUnit) := by
  refine ⟨hf, fun _ _ _ h => ?_⟩
  cases h

end Respects

/-! ## Lasting properties -/

/-- The property of a memory depends on its definitions and its world only. -/
def Memory.Scenic (P : Memory σ → Prop) : Prop :=
  ∀ {m m' : Memory σ}, P m → m'.definitions = m.definitions → m'.world = m.world → P m'

/-- The property of a memory lasts through every change of the stack and of the pending terms, every
roll for a proper range, and every entry into the log. -/
structure Memory.Durable (P : Memory σ → Prop) : Prop where
  stack : ∀ {m : Memory σ} stack, P m → P { m with stack := stack }
  pending : ∀ {m : Memory σ} pending, P m → P { m with pending := pending }
  rolled : ∀ {m : Memory σ} {minimum maximum : Int}, minimum < maximum → P m →
    P { m with dice := m.dice.rolledFor minimum maximum }
  logged : ∀ {m : Memory σ} message, P m → P { m with journal := .log message :: m.journal }

theorem Memory.Scenic.durable {P : Memory σ → Prop} (hP : Memory.Scenic P) : Memory.Durable P :=
  ⟨fun _ h => hP h rfl rfl, fun _ h => hP h rfl rfl, fun _ h => hP h rfl rfl,
    fun _ h => hP h rfl rfl⟩

theorem Memory.Durable.noted {P : Memory σ → Prop} (hP : Memory.Durable P) {m : Memory σ}
    (debug : Bool) (messages : List Message) (h : P m) : P (m.noted debug messages) := by
  cases debug with
  | false => exact h
  | true =>
    induction messages with
    | nil => exact h
    | cons message messages ih => exact hP.logged message ih

/-! ## Tasks -/

/-- What the operations raise of their own: failures, and all faults but that of the limit. -/
def Raised.IsOrdinary : Raised → Prop
  | .fault (.programTooLong _) | .interrupt _ | .exhausted => False
  | .fault _ | .failure _ => True

theorem Raised.isOrdinary_ofFault {fault : Fault} (h : ∀ limit, fault ≠ .programTooLong limit) :
    (Raised.ofFault fault).IsOrdinary := by
  unfold Raised.ofFault
  split
  · cases fault with
    | programTooLong limit => exact absurd rfl (h limit)
    | _ => trivial
  · trivial

theorem Block.closing_error {terms : List String} {fault : Fault}
    (h : closing terms = .error fault) : fault = .unterminatedBlock := by
  unfold closing at h
  split at h
  · cases h
  · cases h
    rfl

theorem Block.Arms.split_error {terms : List String} {fault : Fault}
    (h : Arms.split terms = .error fault) : fault = .unterminatedBlock := by
  unfold Arms.split at h
  split at h
  · cases h
    rfl
  · cases h
  · cases h

namespace Task

variable {P : Memory σ → Prop} {permitted : Raised → Prop}

theorem rearrange_respects (hP : Memory.Durable P) (hempty : permitted (.failure .emptyStack))
    (stackChange : List Int → Option (List Int)) :
    Respects P permitted (rearrange stackChange : Task σ Unit) := by
  refine ⟨fun m hm => ?_, fun m m' raised h => ?_⟩
  · unfold rearrange
    split
    · exact hP.stack _ hm
    · exact hm
  · unfold rearrange at h
    split at h
    · cases h
    · cases h
      exact hempty

theorem pop_respects (hP : Memory.Durable P) (hempty : permitted (.failure .emptyStack)) :
    Respects P permitted (pop : Task σ Int) := by
  refine ⟨fun m hm => ?_, fun m m' raised h => ?_⟩
  · unfold pop
    split
    · exact hP.stack _ hm
    · exact hm
  · unfold pop at h
    split at h
    · cases h
    · cases h
      exact hempty

theorem nextTerm_respects (hP : Memory.Durable P) {name : String}
    (hempty : permitted (Raised.ofFault (.emptyStream name))) :
    Respects P permitted (nextTerm name : Task σ String) := by
  refine ⟨fun m hm => ?_, fun m m' raised h => ?_⟩
  · unfold nextTerm
    split
    · exact hP.pending _ hm
    · exact hm
  · unfold nextTerm at h
    split at h
    · cases h
    · cases h
      exact hempty

theorem ofExcept_respects {x : Except Fault α}
    (h : ∀ fault, x = .error fault → permitted (Raised.ofFault fault)) :
    Respects P permitted (ofExcept x : Task σ α) := by
  cases x with
  | ok a => exact .pure a
  | error fault => exact .throw (h fault rfl)

theorem define_respects (hP : Memory.Durable P) {name : String} {body : List String}
    (hdefine : ∀ m : Memory σ, P m →
      P { m with definitions := m.definitions.insert ⟨name, body⟩ }) :
    Respects P permitted (define name body : Task σ Unit) := by
  refine .bind .get fun m => ?_
  split
  · exact .bind (.change fun m hm => hP.logged _ hm) fun _ => .change hdefine
  · exact .change hdefine

theorem ask_respects (hP : Memory.Scenic P) {request : σ → Reply σ α}
    (hkeeps : ∀ m : Memory σ, P m → P { m with world := (request m.world).world })
    (hraises : ∀ w raised, (request w).result = .error raised → permitted raised) :
    Respects P permitted (ask request) := by
  refine ⟨fun m hm => ?_, fun m m' raised h => ?_⟩
  · simp only [ask]
    split <;> exact hP (hkeeps m hm) rfl rfl
  · simp only [ask] at h
    split at h
    · cases h
    · rename_i hresult
      cases h
      exact hraises _ _ hresult

end Task

/-! ## Built-in operations -/

namespace Builtin

variable {P : Memory σ → Prop} {permitted : Raised → Prop}

theorem roll_respects (hP : Memory.Durable P) (hempty : permitted (.failure .emptyStack))
    (hrange : ∀ minimum maximum, permitted (Raised.ofFault (.invalidRange minimum maximum))) :
    Respects P permitted (roll : Task σ Unit) := by
  have hroll : ∀ m : Memory σ, (P m → P (stateOf (roll m))) ∧
      ∀ raised m', roll m = .error raised m' → permitted raised := by
    intro m
    match hstack : m.stack with
    | [] =>
      have hnil : roll m = .error (.failure .emptyStack) m := by
        simp [roll, bind_apply, Task.pop, hstack]
      rw [hnil]
      refine ⟨fun hm => hm, fun raised m' h => ?_⟩
      cases h
      exact hempty
    | [maximum] =>
      have hone : roll m = .error (.failure .emptyStack) { m with stack := [] } := by
        simp [roll, bind_apply, Task.pop, hstack]
      rw [hone]
      refine ⟨fun hm => hP.stack _ hm, fun raised m' h => ?_⟩
      cases h
      exact hempty
    | maximum :: minimum :: stack =>
      rw [roll_cons hstack]
      by_cases hle : maximum ≤ minimum
      · rw [if_pos hle]
        refine ⟨fun hm => hP.stack _ hm, fun raised m' h => ?_⟩
        obtain ⟨hraised, -⟩ := EStateM.Result.error.inj h
        rw [← hraised]
        exact hrange minimum maximum
      · rw [if_neg hle]
        refine ⟨fun hm => hP.rolled (Int.not_le.mp hle) (hP.stack _ hm), fun raised m' h => ?_⟩
        cases h
  exact ⟨fun m => (hroll m).1, fun m m' raised h => (hroll m).2 raised m' h⟩

/-- A built-in operation keeps what the requests to the world keep, and raises what they raise or
what is ordinary. Only `DEF` touches the definitions, only the actions move, and only `LOOK` asks
where the player is and what stands on a cell. -/
theorem perform_respects [World σ] (hP : Memory.Durable P)
    (hordinary : ∀ raised : Raised, raised.IsOrdinary → permitted raised) {builtin : Builtin}
    (hdefine : builtin = .define → ∀ (m : Memory σ) definition, P m →
      P { m with definitions := m.definitions.insert definition })
    (hmove : builtin.category = .action → ∀ direction,
      Respects P permitted (Task.ask (World.move direction)))
    (hposition : builtin = .look → Respects P permitted (Task.ask World.position))
    (hlookAt : builtin = .look → ∀ cell, Respects P permitted (Task.ask (World.lookAt cell))) :
    Respects P permitted (builtin.perform : Task σ Unit) := by
  have hempty : permitted (.failure .emptyStack) := hordinary _ trivial
  have hfault : ∀ fault : Fault, (∀ limit, fault ≠ .programTooLong limit) →
      permitted (Raised.ofFault fault) := fun fault h => hordinary _ (Raised.isOrdinary_ofFault h)
  have hpop := Task.pop_respects hP hempty
  have hpush : ∀ value, Respects P permitted (Task.push value : Task σ Unit) :=
    fun value => .change fun m hm => hP.stack _ hm
  have hdrop : ∀ count, Respects P permitted
      (modify fun m => { m with pending := m.pending.drop count } : Task σ Unit) :=
    fun count => .change fun m hm => hP.pending _ hm
  have hdivide : ∀ name f, Respects P permitted (divide name f : Task σ Unit) := by
    intro name f
    refine .bind .get fun m => ?_
    split
    · exact .bind (.throw (hfault _ (by simp))) fun _ => Task.rearrange_respects hP hempty _
    · exact Task.rearrange_respects hP hempty _
  cases builtin with
  | push =>
    refine .bind (Task.nextTerm_respects hP (hfault _ (by simp))) fun term => ?_
    split
    · exact .throw (hfault _ (by simp))
    · exact .throw (hordinary _ trivial)
    · split
      · exact hpush _
      · exact .throw (hfault _ (by simp))
  | pop | dup | swap | rot3 | add | sub | mul =>
    unfold perform
    exact Task.rearrange_respects hP hempty _
  | div | mod => exact hdivide _ _
  | rand => exact roll_respects hP hempty fun minimum maximum => hfault _ (by simp)
  | branch =>
    refine .bind .get fun m => .bind (Task.ofExcept_respects fun fault h => ?_) fun arms => ?_
    · rw [Block.Arms.split_error h]
      exact hfault _ (by simp)
    · exact .bind hpop fun condition => .bind (hdrop _) fun _ => .change fun m hm => hP.pending _ hm
  | define =>
    refine .bind (Task.nextTerm_respects hP (hfault _ (by simp))) fun name => .bind .get fun m => ?_
    refine .bind (Task.ofExcept_respects fun fault h => ?_) fun close => .bind .get fun m' => ?_
    · rw [Block.closing_error h]
      exact hfault _ (by simp)
    · exact .bind (hdrop _) fun _ => Task.define_respects hP fun m hm => hdefine rfl m _ hm
  | move =>
    refine .bind hpop fun code => ?_
    split
    · exact hmove rfl _
    · exact .pure ()
  | go direction => exact hmove rfl direction
  | look =>
    refine .bind hpop fun code => ?_
    split
    · exact .pure ()
    · exact .pure ()
    · refine .bind (hposition rfl) fun here => .bind (hlookAt rfl _) fun object => ?_
      split
      · exact hpush _
      · exact .throw (hfault _ (by simp))

end Builtin

/-! ## Terms and steps -/

namespace Machine

variable {P : Memory σ → Prop} {permitted : Raised → Prop} {m : Machine σ}

theorem builtin_of_meaning? {name : String} {builtin : Builtin}
    (h : m.meaning? name = some (.builtin builtin)) :
    builtin.name = name ∧ m.operations.contains name = true := by
  unfold meaning? at h
  split at h
  · cases h
  · split at h
    · rename_i hactive
      obtain ⟨other, hother, hmeaning⟩ := Option.map_eq_some_iff.mp h
      cases hmeaning
      exact ⟨Builtin.name_of_ofName? hother, hactive⟩
    · cases h

/-- A term keeps what the active operations keep, and raises what they raise or what is ordinary. -/
theorem effectOf_respects [World σ] (hP : Memory.Durable P)
    (hordinary : ∀ raised : Raised, raised.IsOrdinary → permitted raised)
    (hactive : ∀ builtin : Builtin, m.operations.contains builtin.name = true →
      Respects P permitted (builtin.perform : Task σ Unit))
    (name : String) (rest : List String) :
    (P m.memory → P (stateOf (m.effectOf name rest))) ∧
      ∀ raised memory, m.effectOf name rest = .error raised memory → permitted raised := by
  have hfault : ∀ fault : Fault, (∀ limit, fault ≠ .programTooLong limit) →
      permitted (Raised.ofFault fault) := fun fault h => hordinary _ (Raised.isOrdinary_ofFault h)
  have htask : ∀ meaning, m.meaning? name = some meaning →
      Respects P permitted (meaning.task : Task σ Unit) := by
    intro meaning hmeaning
    cases meaning with
    | body terms => exact .change fun memory hm => hP.pending _ hm
    | builtin builtin =>
      obtain ⟨rfl, hcontains⟩ := builtin_of_meaning? hmeaning
      exact hactive builtin hcontains
  have hlooked : P m.memory → P m.looked := hP.noted m.debug _
  have htaken : P m.memory → P (m.taken name rest) := fun hm => hP.noted m.debug _ (hP.pending _ hm)
  unfold effectOf
  cases hmeaning : m.meaning? name with
  | none =>
    refine ⟨hlooked, fun raised memory h => ?_⟩
    cases h
    exact hfault _ (by simp)
  | some meaning =>
    simp only
    split
    · have hkeeps := (htask meaning hmeaning).keeps (m.taken name rest)
      have hraises := (htask meaning hmeaning).raises (m.taken name rest)
      cases hresult : meaning.task (m.taken name rest) with
      | ok _ memory =>
        rw [hresult] at hkeeps
        refine ⟨fun hm => hkeeps (htaken hm), fun raised memory' h => ?_⟩
        cases h
      | error raised memory =>
        rw [hresult] at hkeeps
        refine ⟨fun hm => hkeeps (htaken hm), fun raised' memory' h => ?_⟩
        cases h
        exact hraises _ _ hresult
    · refine ⟨hlooked, fun raised memory h => ?_⟩
      obtain ⟨hraised, -⟩ := EStateM.Result.error.inj h
      rw [← hraised]
      exact hfault _ (by simp)

theorem within_respects {task : Task σ α} (h : Respects P permitted task) :
    Respects (fun m : Machine σ => P m.memory) permitted (Run.within task) := by
  refine ⟨fun m hm => ?_, fun m m' raised hraised => ?_⟩
  · have hkeeps := h.keeps m.memory hm
    unfold Run.within
    cases hresult : task m.memory with
    | ok a memory =>
      rw [hresult] at hkeeps
      exact hkeeps
    | error e memory =>
      rw [hresult] at hkeeps
      exact hkeeps
  · unfold Run.within at hraised
    cases hresult : task m.memory with
    | ok a memory =>
      rw [hresult] at hraised
      cases hraised
    | error e memory =>
      rw [hresult] at hraised
      cases hraised
      exact h.raises _ _ _ hresult

/-- The notifications keep the property of the memory. -/
structure NoticesKeep [World σ] (P : Memory σ → Prop) : Prop where
  stackChanged : ∀ stack, Respects P (fun _ => True) (Task.ask (World.stackChanged stack))
  stepped : ∀ steps, Respects P (fun _ => True) (Task.ask (World.stepped steps))

theorem conclude_respects [World σ] (hnotices : NoticesKeep P) :
    Respects (fun m : Machine σ => P m.memory) (fun _ => True) conclude := by
  refine .bind .get fun m => .bind (within_respects (hnotices.stackChanged _)) fun _ => ?_
  refine .bind (.change fun _ h => h) fun _ => .bind .get fun m' => ?_
  refine .bind (within_respects (hnotices.stepped _)) fun _ => .bind .get fun m'' => ?_
  split
  · exact .throw trivial
  · exact .pure ()

theorem settle_memory (hP : Memory.Durable P) (raised : Raised) (h : P m.memory) :
    P (stateOf (settle raised m)).memory := by
  unfold settle
  cases raised.ending? with
  | none => exact h
  | some fault => exact hP.logged _ h

/-- A step keeps what the active operations and the notifications keep. -/
theorem step_keeps [World σ] (hP : Memory.Durable P) (hm : m.Unhosted)
    (hactive : ∀ builtin : Builtin, m.operations.contains builtin.name = true →
      Respects P (fun _ => True) (builtin.perform : Task σ Unit))
    (hnotices : NoticesKeep P) (h : P m.memory) : P (stateOf (step m)).memory := by
  cases hfinal : m.phase.isFinal with
  | true =>
    rw [step_final hfinal]
    exact h
  | false =>
    cases hpending : m.memory.pending with
    | nil =>
      rw [step_end hfinal hpending]
      exact hP.logged _ h
    | cons name rest =>
      have hterm := (effectOf_respects hP (fun _ _ => trivial) hactive name rest).1 h
      rw [step_term hm hfinal hpending]
      cases heffect : m.effectOf name rest with
      | error raised memory =>
        rw [heffect] at hterm
        exact settle_memory (m := { m with memory := memory, phase := .running }) hP raised hterm
      | ok category memory =>
        rw [heffect] at hterm
        have hafter := (conclude_respects hnotices).keeps
          { m with memory := memory, phase := .running } hterm
        simp only
        cases hconclude : conclude { m with memory := memory, phase := .running } with
        | ok _ after =>
          rw [hconclude] at hafter
          exact hafter
        | error raised after =>
          rw [hconclude] at hafter
          exact settle_memory hP raised hafter

/-- So does every run. -/
theorem reaches_keeps [World σ] (hP : Memory.Durable P) (hm : m.Unhosted)
    (hactive : ∀ builtin : Builtin, m.operations.contains builtin.name = true →
      Respects P (fun _ => True) (builtin.perform : Task σ Unit))
    (hnotices : NoticesKeep P) (h : P m.memory) {m' : Machine σ} (hreaches : Reaches m m') :
    P m'.memory := by
  have hkeeps : SameSetup m m' ∧ P m'.memory := by
    refine hreaches.invariant (P := fun machine => SameSetup m machine ∧ P machine.memory) ?_
      ⟨⟨rfl, rfl, rfl⟩, h⟩
    rintro machine ⟨hsame, hmachine⟩
    have hunhosted := hsame.unhosted hm
    refine ⟨hsame.trans (step_sameSetup hunhosted), ?_⟩
    exact step_keeps hP hunhosted (by rw [hsame.operations]; exact hactive) hnotices hmachine
  exact hkeeps.2

end Machine

end StackRover
