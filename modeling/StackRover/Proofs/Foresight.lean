import StackRover.Proofs.Executions
import StackRover.Proofs.Journeys
import StackRover.Proofs.StackFrame

/-!
# Looking before moving

On the open plane, looking in a direction tells beforehand what a move in that direction comes to:
the two operations name the same directions by the same codes and mean the same cells by them. Only
code zero is a difference, and it makes none to where the player ends up.

* `does_look`, `does_move`: what the two operations do in any world, from its replies.
* `Machine.requests`: what is asked of the world when an operation is executed.
* `Object.IsFamiliar`: the objects that are known to programs.
* `look_foretells_move`: the plane is as it looks.
-/

namespace StackRover

variable {σ : Type}

/-! ## Codes -/

/-- The directions to look in are those with the codes from one to four. -/
theorem Direction.exists_ofCode? {code : Int} (h : 1 ≤ code ∧ code ≤ 4) :
    ∃ direction : Direction, ofCode? code = some direction ∧ direction ≠ .stay := by
  obtain ⟨hlow, hhigh⟩ := h
  obtain rfl | rfl | rfl | rfl : code = 1 ∨ code = 2 ∨ code = 3 ∨ code = 4 := by omega
  · exact ⟨.up, rfl, by decide⟩
  · exact ⟨.right, rfl, by decide⟩
  · exact ⟨.down, rfl, by decide⟩
  · exact ⟨.left, rfl, by decide⟩

theorem Direction.ofCode?_improper {code : Int} (h : ¬ (1 ≤ code ∧ code ≤ 4)) :
    ofCode? code = none ∨ ofCode? code = some .stay := by
  cases hcode : ofCode? code with
  | none => exact Or.inl rfl
  | some direction =>
    have hdirection := code_of_ofCode? hcode
    cases direction with
    | stay => exact Or.inr rfl
    | up | right | down | left =>
      simp only [Direction.code] at hdirection
      omega

@[simp] theorem Position.toward_stay (p : Position) : p.toward .stay = p := by
  simp [Position.toward, Direction.vector]

theorem Position.toward_ne {direction : Direction} (h : direction ≠ .stay) (p : Position) :
    p.toward direction ≠ p := by
  obtain ⟨x, y⟩ := p
  cases direction with
  | stay => exact absurd rfl h
  | up | right | down | left =>
    simp only [Position.toward, Direction.vector, ne_eq, Position.mk.injEq]
    omega

/-- A move that comes to nothing is one towards a block. -/
theorem Layout.arrival_eq_self_iff (layout : Layout) (p : Position) {direction : Direction}
    (h : direction ≠ .stay) :
    layout.arrival p direction = p ↔ layout (p.toward direction) = .block := by
  unfold arrival
  split
  · rename_i hblock
    exact iff_of_true rfl hblock
  · rename_i hfree
    exact iff_of_false (Position.toward_ne h p) hfree

@[simp] theorem Layout.arrival_stay (layout : Layout) (p : Position) :
    layout.arrival p .stay = p := by
  simp [arrival]

/-! ## Familiar objects -/

namespace Object

/-- The object is of one of the five kinds that have a code, or pushable. -/
def IsFamiliar (object : Object) : Prop :=
  ∃ name, object = kind name ∧
    (name ∈ ["empty", "block", "exit", "spike", "outside"] ∨ "push".toList <+: name.toList)

/-- A familiar object has a code, and only a block has the code one. -/
theorem IsFamiliar.code? {object : Object} (h : object.IsFamiliar) :
    ∃ value, object.code? = some value ∧ (value = 1 ↔ object = .block) := by
  obtain ⟨name, rfl, hname⟩ := h
  rcases hname with hknown | hpush
  · simp only [List.mem_cons, List.not_mem_nil, or_false] at hknown
    rcases hknown with rfl | rfl | rfl | rfl | rfl
    · exact ⟨0, rfl, by decide⟩
    · exact ⟨1, rfl, by decide⟩
    · exact ⟨2, rfl, by decide⟩
    · exact ⟨3, rfl, by decide⟩
    · exact ⟨-1, rfl, by decide⟩
  · have hpushable : isPushable name = true := List.isPrefixOf_iff_prefix.mpr hpush
    have hother : ∀ known, isPushable known = false → name ≠ known := by
      rintro known hknown rfl
      rw [hpushable] at hknown
      cases hknown
    have hcode : (kind name).code? = some 0 := by
      rw [Object.code?, if_pos hpushable]
      all_goals exact hother _ (by decide)
    refine ⟨0, hcode, iff_of_false (by decide) fun hblock => ?_⟩
    exact hother "block" (by decide) (kind.inj hblock)

theorem isFamiliar_empty : empty.IsFamiliar := ⟨"empty", rfl, Or.inl (by simp)⟩

end Object

/-- If all objects that are placed are familiar, then so is every cell. -/
theorem Layout.isFamiliar_ofList {placed : List (Position × Object)}
    (h : ∀ entry ∈ placed, entry.2.IsFamiliar) (cell : Position) :
    (Layout.ofList placed cell).IsFamiliar := by
  unfold Layout.ofList
  cases hfound : placed.reverse.lookup cell with
  | none => exact Object.isFamiliar_empty
  | some object =>
    obtain ⟨first, last, hsplit, -⟩ := List.lookup_eq_some_iff.mp hfound
    have hmem : (cell, object) ∈ placed.reverse := by simp [hsplit]
    exact h _ (List.mem_reverse.mp hmem)

/-! ## What the two operations do -/

namespace Builtin

theorem inspect_eq_ok [World σ] {direction : Direction} {m : Memory σ} {here : Position}
    {object : Object} {value : Int}
    (hhere : (World.position m.world).result = .ok here)
    (hobject : (World.lookAt (here.toward direction) (World.position m.world).world).result =
      .ok object)
    (hvalue : object.code? = some value) :
    ∃ journal, inspect direction m = .ok ()
      { m with
        stack := value :: m.stack
        world := (World.lookAt (here.toward direction) (World.position m.world).world).world
        journal := journal } := by
  simp only [inspect, bind_apply, Task.ask, hhere, hobject, hvalue]
  exact ⟨_, rfl⟩

end Builtin

namespace Machine

section

variable [World σ] {m : Machine σ} {code : Int} {stack : List Int}

theorem does_look (h : m.Offers .look) (hstack : m.memory.stack = code :: stack)
    {direction : Direction} (hcode : Direction.ofCode? code = some direction)
    (hproper : direction ≠ .stay) {here : Position} {object : Object} {value : Int}
    (hhere : (World.position m.memory.world).result = .ok here)
    (hobject : (World.lookAt (here.toward direction)
      (World.position m.memory.world).world).result = .ok object)
    (hvalue : object.code? = some value) :
    m.Does .look
      { m.memory with
        stack := value :: stack
        world := (World.lookAt (here.toward direction)
          (World.position m.memory.world).world).world } := by
  refine does_of_perform h (by simp [hstack, Builtin.minDepth]) fun journal => ?_
  have hlook : Builtin.look.perform { m.memory with journal := journal } =
      Builtin.inspect direction { m.memory with stack := stack, journal := journal } := by
    refine (Builtin.lookByCode_cons (m := { m.memory with journal := journal }) hstack).trans ?_
    rw [hcode]
    cases direction with
    | stay => exact absurd rfl hproper
    | up | right | down | left => rfl
  obtain ⟨journal', hinspect⟩ := Builtin.inspect_eq_ok
    (m := { m.memory with stack := stack, journal := journal }) hhere hobject hvalue
  exact ⟨journal', hlook.trans hinspect⟩

theorem does_look_improper (h : m.Offers .look) (hstack : m.memory.stack = code :: stack)
    (hcode : Direction.ofCode? code = none ∨ Direction.ofCode? code = some .stay) :
    m.Does .look { m.memory with stack := stack } := by
  refine does_of_perform h (by simp [hstack, Builtin.minDepth]) fun journal => ⟨journal, ?_⟩
  refine (Builtin.lookByCode_cons (m := { m.memory with journal := journal }) hstack).trans ?_
  rcases hcode with hnone | hstay
  · rw [hnone]
  · rw [hstay]

theorem does_move (h : m.Offers .move) (hstack : m.memory.stack = code :: stack)
    {direction : Direction} (hcode : Direction.ofCode? code = some direction)
    (hmoves : (World.move direction m.memory.world).result = .ok ()) :
    m.Does .move
      { m.memory with stack := stack, world := (World.move direction m.memory.world).world } := by
  refine does_of_perform h (by simp [hstack, Builtin.minDepth]) fun journal => ?_
  have hmove : Builtin.move.perform { m.memory with journal := journal } =
      Task.ask (World.move direction) { m.memory with stack := stack, journal := journal } := by
    refine (Builtin.moveByCode_cons (m := { m.memory with journal := journal }) hstack).trans ?_
    rw [hcode]
  rw [hmove]
  simp only [Task.ask, hmoves]
  exact ⟨_, rfl⟩

theorem does_move_none (h : m.Offers .move) (hstack : m.memory.stack = code :: stack)
    (hcode : Direction.ofCode? code = none) : m.Does .move { m.memory with stack := stack } := by
  refine does_of_perform h (by simp [hstack, Builtin.minDepth]) fun journal => ⟨journal, ?_⟩
  refine (Builtin.moveByCode_cons (m := { m.memory with journal := journal }) hstack).trans ?_
  rw [hcode]

end

/-! ## Requests -/

/-- The machine in the same world, where requests are written down from now on. -/
def watched (m : Machine σ) : Machine (Watched σ) :=
  { m with memory := { m.memory with world := ⟨m.memory.world, []⟩ } }

/-- What is asked of the world when the operation is executed, notifications apart. -/
def requests [World σ] (m : Machine σ) (builtin : Builtin) : List Call :=
  (stateOf (step (m.watched.before builtin))).memory.world.calls.reverse

theorem Offers.watched {m : Machine σ} {builtin : Builtin} (h : m.Offers builtin) :
    m.watched.Offers builtin :=
  ⟨h.live, h.resolve⟩

theorem requests_eq [World σ] (hq : QuietHooks σ) {m : Machine σ} {builtin : Builtin}
    {memory : Memory (Watched σ)} (h : m.watched.Does builtin memory) :
    m.requests builtin = memory.world.calls.reverse := by
  obtain ⟨journal, hleaves⟩ := h.leaves
  rw [requests, hleaves, (quietHooks_watched hq).notified]

/-! ## Looking before moving -/

section

variable {m : Machine Plane} {code : Int} {stack : List Int}

/-- A move on a plane that prints nothing is made as far as the layout allows. -/
theorem does_move_plane (hmove : m.Offers .move) (hecho : m.memory.world.echo = false)
    (hstack : m.memory.stack = code :: stack) {direction : Direction}
    (hcode : Direction.ofCode? code = some direction) :
    m.Does .move
      { m.memory with
        stack := stack
        world :=
          { m.memory.world with
            position := m.memory.world.layout.arrival m.memory.world.position direction
            moves := direction :: m.memory.world.moves } } := by
  have hresult : (World.move direction m.memory.world).result = .ok () := by
    show (Plane.move direction m.memory.world).result = .ok ()
    simp [Plane.move, hecho]
  have hmoved := does_move hmove hstack hcode hresult
  rwa [Plane.world_move] at hmoved

/-- `LOOK` does not fail where all objects are familiar. -/
theorem exists_does_look (hlook : m.Offers .look)
    (hfamiliar : ∀ cell, (m.memory.world.layout cell).IsFamiliar)
    (hstack : m.memory.stack = code :: stack) : ∃ memory, m.Does .look memory := by
  by_cases hcode : 1 ≤ code ∧ code ≤ 4
  · obtain ⟨direction, hdirection, hproper⟩ := Direction.exists_ofCode? hcode
    obtain ⟨value, hvalue, -⟩ := (hfamiliar (m.memory.world.position.toward direction)).code?
    exact ⟨_, does_look hlook hstack hdirection hproper rfl rfl hvalue⟩
  · exact ⟨_, does_look_improper hlook hstack (Direction.ofCode?_improper hcode)⟩

/-- `MOVE` does not fail where nothing is printed. -/
theorem exists_does_move (hmove : m.Offers .move) (hecho : m.memory.world.echo = false)
    (hstack : m.memory.stack = code :: stack) : ∃ memory, m.Does .move memory := by
  cases hcode : Direction.ofCode? code with
  | none => exact ⟨_, does_move_none hmove hstack hcode⟩
  | some direction => exact ⟨_, does_move_plane hmove hecho hstack hcode⟩

/-- **Looking foretells moving.** Let the player be on a plane that prints nothing and holds
familiar objects only, and let the top of the stack be a code. If it is one from one to four, `LOOK`
puts a value in the place of the code, having asked for nothing but the position and the next cell
in the direction of the code. The value is one exactly if `MOVE` with the same code would leave the
player in place, and otherwise that move would end on the cell that was looked at. With every other
code, `LOOK` takes the code away and asks for nothing, and `MOVE` takes it away and leaves the
player in place. Both succeed whatever the code is, if the limit allows for a step. -/
theorem look_foretells_move
    (hlook : m.Offers .look) (hmove : m.Offers .move) (hecho : m.memory.world.echo = false)
    (hfamiliar : ∀ cell, (m.memory.world.layout cell).IsFamiliar)
    (hstack : m.memory.stack = code :: stack) :
    (1 ≤ code ∧ code ≤ 4 → ∃ (direction : Direction) (value : Int) (there : Position),
      direction.code = code ∧
      m.Does .look { m.memory with stack := value :: stack } ∧
      m.requests .look = [.position, .lookAt (m.memory.world.position.toward direction)] ∧
      m.Does .move
        { m.memory with
          stack := stack
          world :=
            { m.memory.world with
              position := there
              moves := direction :: m.memory.world.moves } } ∧
      (value = 1 ↔ there = m.memory.world.position) ∧
      (value ≠ 1 → there = m.memory.world.position.toward direction)) ∧
    (¬ (1 ≤ code ∧ code ≤ 4) →
      m.Does .look { m.memory with stack := stack } ∧
      m.requests .look = [] ∧
      ∃ moves, m.Does .move
        { m.memory with stack := stack, world := { m.memory.world with moves := moves } }) ∧
    (((m.steps + 1 : Nat) : Int) ≤ m.maxSteps →
      (∃ last, step (m.before .look) = .ok .ongoing last) ∧
      ∃ last, step (m.before .move) = .ok .paused last) := by
  refine ⟨fun hcode => ?_, fun hcode => ?_, fun hroom => ?_⟩
  · obtain ⟨direction, hdirection, hproper⟩ := Direction.exists_ofCode? hcode
    obtain ⟨value, hvalue, hblock⟩ := (hfamiliar (m.memory.world.position.toward direction)).code?
    refine ⟨direction, value, _, Direction.code_of_ofCode? hdirection,
      does_look hlook hstack hdirection hproper rfl rfl hvalue, ?_,
      does_move_plane hmove hecho hstack hdirection, ?_, fun hfree => ?_⟩
    · have hwatched := does_look hlook.watched hstack hdirection hproper rfl rfl hvalue
      exact requests_eq quietHooks_plane hwatched
    · rw [hblock]
      exact (Layout.arrival_eq_self_iff _ _ hproper).symm
    · exact if_neg fun hcell => hfree (hblock.mpr hcell)
  · have hidle := Direction.ofCode?_improper hcode
    have hwatched := does_look_improper hlook.watched hstack hidle
    refine ⟨does_look_improper hlook hstack hidle, requests_eq quietHooks_plane hwatched, ?_⟩
    rcases hidle with hnone | hstay
    · exact ⟨_, does_move_none hmove hstack hnone⟩
    · have hmoved := does_move_plane hmove hecho hstack hstay
      rw [Layout.arrival_stay] at hmoved
      exact ⟨_, hmoved⟩
  · obtain ⟨seen, hlooks⟩ := exists_does_look hlook hfamiliar hstack
    obtain ⟨reached, hmoves⟩ := exists_does_move hmove hecho hstack
    obtain ⟨journal, hlooked⟩ := hlooks.step_eq quietHooks_plane hroom
    obtain ⟨journal', hmoved⟩ := hmoves.step_eq quietHooks_plane hroom
    exact ⟨⟨_, hlooked⟩, _, hmoved⟩

end

/-- A player between a block on the right and a crate on the left: to the right lies a one, and the
move comes to nothing; to the left lies a zero, and the move ends there. -/
theorem look_foretells_move_corridor :
    ∃ (plane : Plane) (m : Int → Machine Plane),
      plane.echo = false ∧ (∀ cell, (plane.layout cell).IsFamiliar) ∧
      (∀ code, (m code).memory.world = plane ∧ (m code).memory.stack = [code, 7] ∧
        (m code).Offers .look ∧ (m code).Offers .move) ∧
      (m 2).Does .look { (m 2).memory with stack := [1, 7] } ∧
      (m 2).Does .move
        { (m 2).memory with stack := [7], world := { plane with moves := [.right] } } ∧
      (m 4).Does .look { (m 4).memory with stack := [0, 7] } ∧
      (m 4).Does .move
        { (m 4).memory with
          stack := [7], world := { plane with position := ⟨-1, 0⟩, moves := [.left] } } ∧
      (m 5).Does .look { (m 5).memory with stack := [7] } ∧ (m 5).requests .look = [] := by
  let plane : Plane := { layout := .ofList [(⟨1, 0⟩, .block), (⟨-1, 0⟩, .kind "pushbox")] }
  let m : Int → Machine Plane := fun code => (plain plane 9).load [] [code, 7]
  have hoffers : ∀ code, (m code).Offers .look ∧ (m code).Offers .move :=
    fun code => ⟨⟨rfl, rfl⟩, ⟨rfl, rfl⟩⟩
  have hfamiliar : ∀ cell, (plane.layout cell).IsFamiliar := by
    refine Layout.isFamiliar_ofList fun entry hentry => ?_
    simp only [List.mem_cons, List.not_mem_nil, or_false] at hentry
    rcases hentry with rfl | rfl
    · exact ⟨"block", rfl, Or.inl (by simp)⟩
    · exact ⟨"pushbox", rfl, Or.inr (by decide)⟩
  have hforetells : ∀ code, _ := fun code =>
    look_foretells_move (m := m code) (hoffers code).1 (hoffers code).2 rfl hfamiliar rfl
  obtain ⟨d, v, there, hd, hlook, -, hmove, hplace, -⟩ := (hforetells 2).1 (by decide)
  obtain ⟨d', v', there', hd', hlook', -, hmove', -, hpassed⟩ := (hforetells 4).1 (by decide)
  obtain ⟨hother, hrequests, -⟩ := (hforetells 5).2.1 (by decide)
  have hright : some .right = some d :=
    (congrArg Direction.ofCode? hd).symm.trans (Direction.ofCode?_code d)
  have hleft : some .left = some d' :=
    (congrArg Direction.ofCode? hd').symm.trans (Direction.ofCode?_code d')
  cases hright
  cases hleft
  have hv : [1, 7] = [v, 7] := Eq.trans (by decide +kernel) hlook.stack_eq
  have hv' : [0, 7] = [v', 7] := Eq.trans (by decide +kernel) hlook'.stack_eq
  obtain ⟨rfl, -⟩ := List.cons.inj hv
  obtain ⟨rfl, -⟩ := List.cons.inj hv'
  obtain rfl := hplace.mp rfl
  obtain rfl := hpassed (by decide)
  exact ⟨plane, m, rfl, hfamiliar, fun code => ⟨rfl, rfl, hoffers code⟩, hlook, hmove, hlook',
    hmove', hother, hrequests⟩

end Machine

end StackRover
