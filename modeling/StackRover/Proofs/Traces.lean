import StackRover.Proofs.Conclusion
import StackRover.World.Recorder

/-!
# Traced worlds

A traced world passes every request on to the world inside it, and writes down the request together
with what was raised in answer. It shows what a step says to its world: first the requests of the
term, which are no notifications and move at most once, then the notifications, as far as the step
comes.

* `Traced`: any world, with all that passes between it and the machine.
* `effectOf_asks`: the requests of a term.
* `Speaks`, `wrapUp_speaks`: the notifications of a step, by the way in which it ends.
* `step_speaks`: both together.
-/

namespace StackRover

variable {σ α β : Type}

/-- A request, with what was raised in answer to it. -/
structure Exchange where
  call : Call
  raised : Option Raised := none
  deriving Repr, DecidableEq

/-- The direction of a move. -/
def Exchange.direction? (exchange : Exchange) : Option Direction :=
  match exchange.call with
  | .move direction => some direction
  | _ => none

/-- What was raised in place of an answer. -/
def Reply.raised? (reply : Reply σ α) : Option Raised :=
  match reply.result with
  | .ok _ => none
  | .error raised => some raised

/-- A world, with all that has passed between it and the machine. -/
structure Traced (σ : Type) where
  world : σ
  /-- The exchanges, the latest first. -/
  exchanges : List Exchange := []

namespace Traced

/-- Pass a request on to the world and write down the exchange. -/
def pass (call : Call) (request : σ → Reply σ α) (traced : Traced σ) : Reply (Traced σ) α :=
  let reply := request traced.world
  ⟨reply.result, ⟨reply.world, ⟨call, reply.raised?⟩ :: traced.exchanges⟩, reply.events⟩

instance [World σ] : World (Traced σ) where
  move direction := pass (.move direction) (World.move direction)
  lookAt cell := pass (.lookAt cell) (World.lookAt cell)
  position := pass .position World.position
  stackChanged stack := pass (.stackChanged stack) (World.stackChanged stack)
  stepped steps := pass (.stepped steps) (World.stepped steps)

end Traced

theorem raisesOnly_traced [World σ] {permitted : Raised → Prop} (h : RaisesOnly σ permitted) :
    RaisesOnly (Traced σ) permitted where
  move direction traced := h.move direction traced.world
  lookAt cell traced := h.lookAt cell traced.world
  position traced := h.position traced.world
  stackChanged stack traced := h.stackChanged stack traced.world
  stepped steps traced := h.stepped steps traced.world

/-! ## What a memory hears -/

/-- The exchanges, oldest first, are what the world of the second memory has heard since the first.
-/
def Memory.Hears (m : Memory (Traced σ)) (exchanges : List Exchange) (m' : Memory (Traced σ)) :
    Prop :=
  m'.world.exchanges = exchanges.reverse ++ m.world.exchanges

theorem Memory.Hears.of_world {m m' : Memory (Traced σ)} (h : m'.world = m.world) :
    m.Hears [] m' := by
  unfold Memory.Hears
  rw [h]
  rfl

theorem Memory.Hears.trans {m m' m'' : Memory (Traced σ)} {first second : List Exchange}
    (h : m.Hears first m') (h' : m'.Hears second m'') : m.Hears (first ++ second) m'' := by
  unfold Memory.Hears at *
  rw [h', h, List.reverse_append, List.append_assoc]

/-- What is heard is determined by the two memories. -/
theorem Memory.Hears.unique {m m' : Memory (Traced σ)} {first second : List Exchange}
    (h : m.Hears first m') (h' : m.Hears second m') : first = second := by
  unfold Memory.Hears at *
  rw [h] at h'
  exact List.reverse_inj.mp (List.append_cancel_right h')

/-- What the task says to the world is of the given kind, and what it raises is ordinary or the
answer to something said. -/
def Task.Converses (kind : Exchange → Prop) (task : Task (Traced σ) α) : Prop :=
  ∀ m, ∃ exchanges, m.Hears exchanges (stateOf (task m)) ∧ (∀ exchange ∈ exchanges, kind exchange) ∧
    ∀ raised m', task m = .error raised m' →
      raised.IsOrdinary ∨ ∃ exchange ∈ exchanges, exchange.raised = some raised

namespace Task.Converses

variable {kind : Exchange → Prop}

theorem bind {task : Task (Traced σ) α} {next : α → Task (Traced σ) β} (h : task.Converses kind)
    (hnext : ∀ a, (next a).Converses kind) : Task.Converses kind (task >>= next) := by
  intro m
  obtain ⟨exchanges, hhears, hkind, hraised⟩ := h m
  rw [bind_apply]
  cases hresult : task m with
  | error raised m' =>
    rw [hresult] at hhears
    refine ⟨exchanges, hhears, hkind, fun other m'' herror => ?_⟩
    cases herror
    exact hraised _ _ hresult
  | ok a m' =>
    rw [hresult] at hhears
    obtain ⟨more, hhears', hkind', hraised'⟩ := hnext a m'
    refine ⟨exchanges ++ more, hhears.trans hhears', fun exchange hmem => ?_,
      fun raised m'' herror => ?_⟩
    · rcases List.mem_append.mp hmem with hfirst | hsecond
      · exact hkind exchange hfirst
      · exact hkind' exchange hsecond
    · rcases hraised' raised m'' herror with hordinary | ⟨exchange, hmem, hanswer⟩
      · exact Or.inl hordinary
      · exact Or.inr ⟨exchange, List.mem_append_right _ hmem, hanswer⟩

/-- A task that leaves every world as it is says nothing. -/
theorem silent {task : Task (Traced σ) α}
    (h : ∀ world, Respects (fun m => m.world = world) Raised.IsOrdinary task) :
    task.Converses kind := by
  intro m
  refine ⟨[], .of_world ((h m.world).keeps m rfl), fun exchange hmem => ?_,
    fun raised m' herror => ?_⟩
  · cases hmem
  · exact Or.inl ((h m.world).raises m m' raised herror)

end Task.Converses

theorem Task.ask_hears (call : Call) (request : σ → Reply σ α) (m : Memory (Traced σ)) :
    m.Hears [⟨call, (request m.world.world).raised?⟩]
      (stateOf (Task.ask (Traced.pass call request) m)) := by
  unfold Task.ask Traced.pass
  simp only
  cases (request m.world.world).result <;> rfl

theorem Task.ask_raised {call : Call} {request : σ → Reply σ α} {m m' : Memory (Traced σ)}
    {raised : Raised} (h : Task.ask (Traced.pass call request) m = .error raised m') :
    (request m.world.world).raised? = some raised := by
  have hresult : (request m.world.world).result = .error raised := Task.result_of_ask h
  unfold Reply.raised?
  rw [hresult]

theorem Task.ask_answered {call : Call} {request : σ → Reply σ α} {m m' : Memory (Traced σ)} {a : α}
    (h : Task.ask (Traced.pass call request) m = .ok a m') :
    (request m.world.world).raised? = none := by
  unfold Task.ask Traced.pass at h
  simp only at h
  unfold Reply.raised?
  cases hresult : (request m.world.world).result with
  | ok a => rfl
  | error other =>
    rw [hresult] at h
    cases h

theorem Task.ask_converses {kind : Exchange → Prop} {call : Call} (request : σ → Reply σ α)
    (hkind : ∀ raised, kind ⟨call, raised⟩) :
    Task.Converses kind (Task.ask (Traced.pass call request)) := by
  intro m
  refine ⟨_, Task.ask_hears call request m, fun exchange hmem => ?_, fun raised m' herror => ?_⟩
  · rw [List.mem_singleton.mp hmem]
    exact hkind _
  · exact Or.inr ⟨_, List.mem_singleton_self _, Task.ask_raised herror⟩

/-! ## The requests of a term -/

/-- A request that only looks. -/
def Exchange.IsGlance (exchange : Exchange) : Prop :=
  exchange.call.isNotice = false ∧ exchange.direction? = none

theorem Memory.durable_world (world : σ) : Memory.Durable fun m : Memory σ => m.world = world :=
  Memory.Scenic.durable fun hm _ hworld => hworld.trans hm

theorem Builtin.perform_silent [World σ] {builtin : Builtin} (haction : builtin.category ≠ .action)
    (hlook : builtin ≠ .look) (world : σ) :
    Respects (fun m : Memory σ => m.world = world) Raised.IsOrdinary
      (builtin.perform : Task σ Unit) :=
  perform_respects (Memory.durable_world world) (fun _ h => h) (fun _ _ _ hm => hm)
    (fun h => absurd h haction) (fun h => absurd h hlook) fun h => absurd h hlook

theorem Builtin.inspect_converses [World σ] (direction : Direction) :
    Task.Converses Exchange.IsGlance (inspect direction : Task (Traced σ) Unit) := by
  refine .bind (Task.ask_converses World.position fun _ => ⟨rfl, rfl⟩) fun here => ?_
  refine .bind (Task.ask_converses (World.lookAt _) fun _ => ⟨rfl, rfl⟩) fun object => ?_
  split
  · exact .silent fun world => .change fun m hm => hm
  · exact .silent fun world => .throw (Raised.isOrdinary_ofFault (by simp))

/-- A built-in operation that is no action asks at most where the player is and what stands on a
cell. -/
theorem Builtin.perform_converses [World σ] {builtin : Builtin}
    (haction : builtin.category ≠ .action) :
    Task.Converses Exchange.IsGlance (builtin.perform : Task (Traced σ) Unit) := by
  by_cases hlook : builtin = .look
  · subst hlook
    refine .bind (.silent fun world => ?_) fun code => ?_
    · exact Task.pop_respects (Memory.durable_world world) trivial
    · split
      · exact .silent fun world => .pure ()
      · exact .silent fun world => .pure ()
      · exact inspect_converses _
  · exact .silent fun world => perform_silent haction hlook world

/-- The direction in which a built-in operation moves the player, on the given stack. -/
def Builtin.heading? (stack : List Int) : Builtin → Option Direction
  | .go direction => some direction
  | .move => stack.head?.bind Direction.ofCode?
  | _ => none

/-- The direction in which an entry moves the player, on the given stack. -/
def Entry.heading? (stack : List Int) : Entry → Option Direction
  | .definition _ => none
  | .operation o =>
    match o.effect with
    | .builtin builtin => builtin.heading? stack
    | .hosted _ => none

theorem Builtin.heading?_of_category {builtin : Builtin} (haction : builtin.category ≠ .action)
    (stack : List Int) : builtin.heading? stack = none := by
  cases builtin with
  | go | move => exact absurd rfl haction
  | _ => rfl

theorem Builtin.heading?_of_shallow {builtin : Builtin} {stack : List Int}
    (hdepth : stack.length < builtin.minDepth) : builtin.heading? stack = none := by
  cases builtin with
  | go => exact absurd hdepth (Nat.not_lt_zero _)
  | move =>
    have hnil : stack = [] := List.eq_nil_of_length_eq_zero (Nat.lt_one_iff.mp hdepth)
    rw [hnil]
    rfl
  | _ => rfl

/-- An action moves the player, unless it is a `MOVE` by a code that names no direction. -/
theorem Builtin.perform_action [World σ] {builtin : Builtin} (haction : builtin.category = .action)
    {m : Memory σ} (hdepth : builtin.minDepth ≤ m.stack.length) :
    ∃ m' : Memory σ, m'.world = m.world ∧
      (builtin.perform : Task σ Unit) m =
        match builtin.heading? m.stack with
        | some direction => Task.ask (World.move direction) m'
        | none => .ok () m' := by
  cases builtin with
  | go direction => exact ⟨m, rfl, rfl⟩
  | move =>
    cases hstack : m.stack with
    | nil =>
      rw [hstack] at hdepth
      exact absurd hdepth (by decide)
    | cons code stack => exact ⟨{ m with stack := stack }, rfl, moveByCode_cons hstack⟩
  | _ => cases haction

/-- The requests are those of a computation on the memory: none of them notifies the world, they
move in the given direction, if any, and what is raised is ordinary or the answer to one of them. -/
structure Memory.Asks (m : Memory (Traced σ)) (heading? : Option Direction)
    (requests : List Exchange) (result : EStateM.Result Raised (Memory (Traced σ)) α) : Prop where
  hears : m.Hears requests (stateOf result)
  notices : ∀ exchange ∈ requests, exchange.call.isNotice = false
  moves : requests.filterMap Exchange.direction? = heading?.toList
  raises : ∀ raised m', result = .error raised m' →
    raised.IsOrdinary ∨ ∃ exchange ∈ requests, exchange.raised = some raised

theorem Memory.asks_nothing {m m' : Memory (Traced σ)} (hworld : m'.world = m.world) (a : α) :
    m.Asks none [] (.ok a m' : EStateM.Result Raised (Memory (Traced σ)) α) := by
  refine ⟨.of_world hworld, fun exchange hmem => ?_, rfl, fun raised m'' h => ?_⟩
  · cases hmem
  · cases h

theorem Memory.asks_fault {m m' : Memory (Traced σ)} (hworld : m'.world = m.world) {fault : Fault}
    (hfault : ∀ limit, fault ≠ .programTooLong limit) :
    m.Asks none []
      (.error (Raised.ofFault fault) m' : EStateM.Result Raised (Memory (Traced σ)) α) := by
  refine ⟨.of_world hworld, fun exchange hmem => ?_, rfl, fun raised m'' h => Or.inl ?_⟩
  · cases hmem
  · obtain ⟨hraised, -⟩ := EStateM.Result.error.inj h
    rw [← hraised]
    exact Raised.isOrdinary_ofFault hfault

theorem Memory.Asks.of_world {m start : Memory (Traced σ)} {heading? : Option Direction}
    {requests : List Exchange} {result : EStateM.Result Raised (Memory (Traced σ)) α}
    (h : m.Asks heading? requests result) (hworld : m.world = start.world) :
    start.Asks heading? requests result := by
  obtain ⟨hhears, hnotices, hmoves, hraises⟩ := h
  refine ⟨?_, hnotices, hmoves, hraises⟩
  unfold Memory.Hears at *
  rw [hhears, hworld]

theorem Memory.Asks.relabel {m : Memory (Traced σ)} {heading? : Option Direction}
    {requests : List Exchange} {result : EStateM.Result Raised (Memory (Traced σ)) α}
    {result' : EStateM.Result Raised (Memory (Traced σ)) β} (h : m.Asks heading? requests result)
    (hstate : stateOf result' = stateOf result) (hraised : raisedOf result' = raisedOf result) :
    m.Asks heading? requests result' := by
  obtain ⟨hhears, hnotices, hmoves, hraises⟩ := h
  refine ⟨by rw [hstate]; exact hhears, hnotices, hmoves, fun raised m' herror => ?_⟩
  rw [herror] at hraised
  exact hraises raised _ (eq_error_of_raisedOf hraised.symm)

/-- The requests of a built-in operation. -/
theorem Builtin.perform_asks [World σ] {builtin : Builtin} {m : Memory (Traced σ)}
    (hdepth : builtin.minDepth ≤ m.stack.length) :
    ∃ requests, m.Asks (builtin.heading? m.stack) requests
      ((builtin.perform : Task (Traced σ) Unit) m) := by
  by_cases haction : builtin.category = .action
  · obtain ⟨m', hworld, hperform⟩ := perform_action haction hdepth
    rw [hperform]
    cases builtin.heading? m.stack with
    | none => exact ⟨[], Memory.asks_nothing hworld ()⟩
    | some direction =>
      have hasks : m'.Asks (some direction)
          [⟨.move direction, (World.move direction m'.world.world).raised?⟩]
          (Task.ask (World.move direction) m') := by
        refine ⟨Task.ask_hears _ _ m', fun exchange hmem => ?_, rfl, fun raised m'' herror => ?_⟩
        · rw [List.mem_singleton.mp hmem]
          rfl
        · exact Or.inr ⟨_, List.mem_singleton_self _, Task.ask_raised herror⟩
      exact ⟨_, hasks.of_world hworld⟩
  · obtain ⟨requests, hhears, hglance, hraises⟩ := perform_converses haction m
    rw [heading?_of_category haction]
    refine ⟨requests, hhears, fun exchange hmem => (hglance exchange hmem).1, ?_, hraises⟩
    exact List.filterMap_eq_nil_iff.mpr fun exchange hmem => (hglance exchange hmem).2

namespace Machine

/-- The direction in which a term moves the player. -/
def heading? (m : Machine σ) (name : String) : Option Direction :=
  (m.resolve name).bind (Entry.heading? m.memory.stack)

theorem heading?_eq {m : Machine σ} (hm : m.Unhosted) (name : String) :
    m.heading? name =
      (m.meaning? name).bind fun meaning => (meaning.entry name).heading? m.memory.stack := by
  unfold heading?
  rw [resolve_unhosted hm]
  cases m.meaning? name <;> rfl

variable {m : Machine (Traced σ)}

/-- The requests of a term. -/
theorem effectOf_asks [World σ] (hm : m.Unhosted) (name : String) (rest : List String) :
    ∃ requests, m.memory.Asks (m.heading? name) requests (m.effectOf name rest) := by
  rw [heading?_eq hm]
  unfold effectOf
  cases m.meaning? name with
  | none =>
    refine ⟨[], Memory.asks_fault ?_ ?_⟩
    · rfl
    · simp
  | some meaning =>
    simp only [Option.bind_some]
    by_cases hdepth : meaning.minDepth ≤ m.memory.stack.length
    · rw [if_pos hdepth]
      have htask : ∃ requests,
          (m.taken name rest).Asks ((meaning.entry name).heading? m.memory.stack)
          requests ((meaning.task : Task (Traced σ) Unit) (m.taken name rest)) := by
        cases meaning with
        | body terms =>
          refine ⟨[], Memory.asks_nothing ?_ ()⟩
          rfl
        | builtin builtin => exact Builtin.perform_asks hdepth
      obtain ⟨requests, hasks⟩ := htask
      refine ⟨requests, Memory.Asks.relabel (hasks.of_world rfl) ?_ ?_⟩
      · cases meaning.task (m.taken name rest) <;> rfl
      · cases meaning.task (m.taken name rest) <;> rfl
    · have hheading : (meaning.entry name).heading? m.memory.stack = none := by
        cases meaning with
        | body terms => rfl
        | builtin builtin => exact Builtin.heading?_of_shallow (Nat.lt_of_not_le hdepth)
      -- A `MOVE` on an empty stack is refused, and has no direction either.
      rw [if_neg hdepth, hheading]
      refine ⟨[], Memory.asks_fault ?_ ?_⟩
      · rfl
      · simp

/-! ## The notifications of a step -/

/-- What a step says to the world after the effect of its term, and how it ends. -/
inductive Speaks [World σ] (m : Machine (Traced σ)) :
    EStateM.Result Raised (Memory (Traced σ)) Category → List Exchange →
      EStateM.Result Raised (Machine (Traced σ)) Progress → Prop
  /-- The effect raised something. -/
  | refused (raised : Raised) (memory : Memory (Traced σ)) :
      Speaks m (.error raised memory) []
        (settle raised { m with memory := memory, phase := .running })
  /-- The notification of the stack raised something. -/
  | untold (category : Category) (memory told : Memory (Traced σ)) (raised : Raised)
      (hhears : memory.Hears [⟨.stackChanged memory.stack, some raised⟩] told) :
      Speaks m (.ok category memory) [⟨.stackChanged memory.stack, some raised⟩]
        (settle raised { m with memory := told, phase := .running })
  /-- The notification of the count raised something. -/
  | uncounted (category : Category) (memory counted : Memory (Traced σ)) (raised : Raised)
      (hhears : memory.Hears
        [⟨.stackChanged memory.stack, none⟩, ⟨.stepped (m.steps + 1), some raised⟩] counted) :
      Speaks m (.ok category memory)
        [⟨.stackChanged memory.stack, none⟩, ⟨.stepped (m.steps + 1), some raised⟩]
        (settle raised { m with memory := counted, steps := m.steps + 1, phase := .running })
  /-- The count has passed the limit. -/
  | overran (category : Category) (memory counted : Memory (Traced σ))
      (hlimit : m.maxSteps < ((m.steps + 1 : Nat) : Int))
      (hhears : memory.Hears
        [⟨.stackChanged memory.stack, none⟩, ⟨.stepped (m.steps + 1), none⟩] counted) :
      Speaks m (.ok category memory)
        [⟨.stackChanged memory.stack, none⟩, ⟨.stepped (m.steps + 1), none⟩]
        (settle (Raised.ofFault (.programTooLong m.maxSteps))
          { m with memory := counted, steps := m.steps + 1, phase := .running })
  /-- The run goes on. -/
  | counted (category : Category) (memory counted : Memory (Traced σ))
      (hlimit : ((m.steps + 1 : Nat) : Int) ≤ m.maxSteps)
      (hhears : memory.Hears
        [⟨.stackChanged memory.stack, none⟩, ⟨.stepped (m.steps + 1), none⟩] counted) :
      Speaks m (.ok category memory)
        [⟨.stackChanged memory.stack, none⟩, ⟨.stepped (m.steps + 1), none⟩]
        (.ok category.progress
          { m with memory := counted, steps := m.steps + 1, phase := category.phase })

theorem wrapUp_speaks [World σ] (m : Machine (Traced σ))
    (effect : EStateM.Result Raised (Memory (Traced σ)) Category) :
    ∃ notices, m.Speaks effect notices (m.wrapUp effect) := by
  unfold wrapUp
  cases effect with
  | error raised memory => exact ⟨[], .refused raised memory⟩
  | ok category memory =>
    simp only
    have hstack :=
      Task.ask_hears (.stackChanged memory.stack) (World.stackChanged memory.stack) memory
    change memory.Hears _ (stateOf (Task.ask (World.stackChanged memory.stack) memory)) at hstack
    cases htold : Task.ask (World.stackChanged memory.stack) memory with
    | error raised told =>
      rw [htold, Task.ask_raised htold] at hstack
      exact ⟨_, .untold category memory told raised hstack⟩
    | ok _ told =>
      rw [htold, Task.ask_answered htold] at hstack
      have hsteps := Task.ask_hears (.stepped (m.steps + 1)) (World.stepped (m.steps + 1)) told
      change told.Hears _ (stateOf (Task.ask (World.stepped (m.steps + 1)) told)) at hsteps
      simp only
      cases hcounted : Task.ask (World.stepped (m.steps + 1)) told with
      | error raised counted =>
        rw [hcounted, Task.ask_raised hcounted] at hsteps
        exact ⟨_, .uncounted category memory counted raised (hstack.trans hsteps)⟩
      | ok _ counted =>
        rw [hcounted, Task.ask_answered hcounted] at hsteps
        by_cases hlimit : m.maxSteps < ((m.steps + 1 : Nat) : Int)
        · simp only [if_pos hlimit]
          exact ⟨_, .overran category memory counted hlimit (hstack.trans hsteps)⟩
        · simp only [if_neg hlimit]
          exact ⟨_, .counted category memory counted (by omega) (hstack.trans hsteps)⟩

theorem settle_world (raised : Raised) (m : Machine σ) :
    (stateOf (settle raised m)).memory.world = m.memory.world := by
  unfold settle
  cases raised.ending? <;> rfl

section Speaks

variable [World σ] {effect : EStateM.Result Raised (Memory (Traced σ)) Category}
  {notices : List Exchange} {result : EStateM.Result Raised (Machine (Traced σ)) Progress}

theorem Speaks.hears (h : m.Speaks effect notices result) :
    (stateOf effect).Hears notices (stateOf result).memory := by
  have hsettle : ∀ {memory : Memory (Traced σ)} {raised : Raised} {m' : Machine (Traced σ)},
      memory.Hears notices m'.memory →
        memory.Hears notices (stateOf (settle raised m')).memory := by
    intro memory raised m' hhears
    unfold Memory.Hears at *
    rw [settle_world, hhears]
  cases h with
  | refused => exact hsettle (.of_world rfl)
  | untold _ _ _ _ hhears => exact hsettle hhears
  | uncounted _ _ _ _ hhears => exact hsettle hhears
  | overran _ _ _ _ hhears => exact hsettle hhears
  | counted _ _ _ _ hhears => exact hhears

theorem Speaks.isNotice (h : m.Speaks effect notices result) :
    ∀ exchange ∈ notices, exchange.call.isNotice = true := by
  cases h <;> simp [Call.isNotice]

/-- No notification moves the player. -/
theorem Speaks.moves (h : m.Speaks effect notices result) :
    notices.filterMap Exchange.direction? = [] := by
  refine List.filterMap_eq_nil_iff.mpr fun exchange hmem => ?_
  have hnotice := h.isNotice exchange hmem
  unfold Exchange.direction?
  cases hcall : exchange.call with
  | move direction =>
    rw [hcall] at hnotice
    cases hnotice
  | lookAt | position | stackChanged | stepped => rfl

/-- What a step that executes a term says to the world: the requests of the term, and then the
notifications. -/
theorem step_speaks (hm : m.Unhosted) (hlive : m.phase.isFinal = false) {name : String}
    {rest : List String} (hpending : m.memory.pending = name :: rest) :
    ∃ requests notices, m.memory.Asks (m.heading? name) requests (m.effectOf name rest) ∧
      m.Speaks (m.effectOf name rest) notices (step m) ∧
      m.memory.Hears (requests ++ notices) (stateOf (step m)).memory := by
  obtain ⟨requests, hasks⟩ := effectOf_asks hm name rest
  obtain ⟨notices, hspeaks⟩ := wrapUp_speaks m (m.effectOf name rest)
  rw [← step_wrapUp hm hlive hpending] at hspeaks
  exact ⟨requests, notices, hasks, hspeaks, hasks.hears.trans hspeaks.hears⟩

end Speaks

end Machine

end StackRover
