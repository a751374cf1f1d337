import StackRover.Proofs.Courses
import StackRover.Proofs.HostCalls
import StackRover.Proofs.Journals
import StackRover.Proofs.Traces

/-!
# Pacing

A run may be taken by single steps, by turns, at one go, or with a pause after every turn. None of
this changes it: a step that is taken beforehand is a step that the run no longer has to take, and a
pause is an entry in the journal, which nobody reads. The world may be any, also one that writes
down what it is asked, so it is asked the same things in the same order. A negative delay is the
exception: the first pause fails, and with it the run (`runPaced_negative`).

* `Steady.run_step`: a step taken beforehand.
* `Paced`: a journal with pauses inserted.
* `Strides.finish_paced`, `Strides.finish_negative`: a loop that pauses.
* `run_driven`: all ways to drive a run come to the same.
-/

namespace StackRover

variable {σ : Type}

/-- The second journal is the first with so many pauses of the given length inserted. -/
inductive Paced (delay : Int) : Nat → List Event → List Event → Prop
  | nil : Paced delay 0 [] []
  | event {n : Nat} {journal paced : List Event} (event : Event) (h : Paced delay n journal paced) :
      Paced delay n (event :: journal) (event :: paced)
  | pause {n : Nat} {journal paced : List Event} (h : Paced delay n journal paced) :
      Paced delay (n + 1) journal (.pause delay :: paced)

namespace Paced

variable {delay : Int} {n : Nat} {journal paced : List Event}

theorem append (added : List Event) (h : Paced delay n journal paced) :
    Paced delay n (added ++ journal) (added ++ paced) := by
  induction added with
  | nil => exact h
  | cons event added ih => exact .event event ih

theorem refl (journal : List Event) : Paced delay 0 journal journal := by
  have h : Paced delay 0 (journal ++ []) (journal ++ []) := append journal .nil
  rw [List.append_nil] at h
  exact h

end Paced

namespace Machine

variable {m : Machine σ} {permitted : Raised → Prop} [World σ]

/-! ## Steps that are taken beforehand -/

/-- Where all that is raised ends the run, nothing escapes from a step; and a step that does not go
on leaves a run that is over. -/
theorem Steady.step_ok (hm : m.Steady fun raised => raised.ending? ≠ none) :
    ∃ progress next, Machine.step m = .ok progress next ∧
      (progress.goesOn = false → next.phase.isFinal = true) := by
  rcases hm.step_cases with ⟨progress, last, hstep, -, hfinal, -⟩ | ⟨effect, hraises, hstep⟩
  · exact ⟨progress, last, hstep, fun _ => hfinal⟩
  · cases hresult : m.wrapUp effect with
    | error raised next =>
      obtain ⟨hending, hnone⟩ := wrapUp_raises hm.world hraises hresult
      exact absurd hnone hending
    | ok progress next =>
      refine ⟨progress, next, hstep.trans hresult, fun hgoes => ?_⟩
      rw [(wrapUp_stops hresult hgoes).2.1]
      rfl

omit [World σ] in
theorem pause_negative {delay : Int} (h : delay < 0) (m : Machine σ) :
    Run.pause delay m = .error (.failure .negativePause) m := by
  unfold Run.pause
  rw [if_pos h]
  rfl

omit [World σ] in
/-- A pause enters itself into the journal. -/
theorem pause_paced {delay : Int} (hdelay : 0 ≤ delay) {p : Nat} {journal : List Event}
    (hjournal : Paced delay p m.memory.journal journal) :
    ∃ journal', Paced delay (p + if delay = 0 then 0 else 1) m.memory.journal journal' ∧
      Run.pause delay (m.rejournal journal) = .ok () (m.rejournal journal') := by
  unfold Run.pause
  rw [if_neg (Int.not_lt.mpr hdelay)]
  by_cases hzero : delay = 0
  · rw [if_pos hzero, if_pos hzero]
    exact ⟨journal, hjournal, rfl⟩
  · rw [if_neg hzero, if_neg hzero]
    exact ⟨_, hjournal.pause, rfl⟩

/-- What a step enters into the journal does not depend on the pauses in it. -/
theorem step_paced (m : Machine σ) {delay : Int} {p : Nat} {journal : List Event}
    (hjournal : Paced delay p m.memory.journal journal) :
    ∃ journal', Paced delay p (stateOf (step m)).memory.journal journal' ∧
      step (m.rejournal journal) = mapState (rejournal journal') (step m) := by
  obtain ⟨added, hadded, hsame⟩ := step_rejournal m
  refine ⟨added ++ journal, ?_, hsame journal⟩
  rw [hadded]
  exact hjournal.append added

/-- A loop that pauses takes the same strides as one that does not, and pauses after each that ends
a turn. The induction is on the strides; what it carries is that the journal is the unpaced one with
the pauses so far. -/
theorem Strides.finishWithin_paced {n k : Nat} {stop : Machine σ} (h : Strides n k m stop)
    {delay : Int} (hdelay : 0 ≤ delay ∨ k = 0) (fuel : Nat) {p : Nat} {journal : List Event}
    (hjournal : Paced delay p m.memory.journal journal) :
    ∃ journal', Paced delay (p + if delay = 0 then 0 else k) stop.memory.journal journal' ∧
      finishWithin delay (n + fuel) (m.rejournal journal) =
        finishWithin delay fuel (stop.rejournal journal') := by
  induction h generalizing p journal with
  | refl m =>
    rw [ite_self, Nat.zero_add]
    exact ⟨journal, hjournal, rfl⟩
  | @cons n k m next stop progress hstep hgoes _ ih =>
    obtain ⟨between, hbetween, hstep'⟩ := step_paced m hjournal
    rw [hstep] at hbetween hstep'
    rw [Nat.add_right_comm, finishWithin, bind_apply_ok hstep']
    cases progress with
    | finished | failed => cases hgoes
    | ongoing => exact ih hdelay hbetween
    | paused =>
      have hnonneg : 0 ≤ delay := hdelay.resolve_right (Nat.succ_ne_zero k)
      obtain ⟨after, hafter, hpause⟩ := pause_paced hnonneg hbetween
      obtain ⟨journal', hpaced, hfinish⟩ := ih (Or.inl hnonneg) hafter
      have hcount : p + (if delay = 0 then 0 else 1) + (if delay = 0 then 0 else k) =
          p + if delay = 0 then 0 else k + 1 := by
        split <;> omega
      rw [hcount] at hpaced
      exact ⟨journal', hpaced, (bind_apply_ok hpause).trans hfinish⟩

/-- A paced run is the run at one go, with its pauses in the journal. -/
theorem Strides.finish_paced {n k : Nat} {stop : Machine σ} (h : Strides n k m stop)
    (hstop : ∀ progress next, step stop = .ok progress next → progress.goesOn = false)
    (hn : n < m.allowance) {delay : Int} (hdelay : 0 ≤ delay ∨ k = 0) :
    ∃ journal,
      Paced delay (if delay = 0 then 0 else k) (stateOf (step stop)).memory.journal journal ∧
      finish delay m = mapState (rejournal journal) (outcomeOf (step stop)) := by
  obtain ⟨fuel, hfuel⟩ : ∃ fuel, m.allowance = n + (fuel + 1) :=
    ⟨m.allowance - (n + 1), by omega⟩
  obtain ⟨between, hbetween, hfinish⟩ :=
    h.finishWithin_paced hdelay (fuel + 1) (.refl m.memory.journal)
  have hsame : m.rejournal m.memory.journal = m := rfl
  rw [hsame, ← hfuel] at hfinish
  rw [Nat.zero_add] at hbetween
  obtain ⟨journal, hjournal, hlast⟩ := step_paced stop hbetween
  refine ⟨journal, hjournal, ?_⟩
  unfold finish
  rw [bind_apply_ok (get_apply m)]
  cases hstep : step stop with
  | error raised last =>
    rw [hstep] at hlast
    rw [finishWithin, bind_apply_error hlast] at hfinish
    rw [bind_apply_error hfinish]
    rfl
  | ok progress last =>
    have hgoes := hstop progress last hstep
    rw [hstep] at hlast
    rw [finishWithin, bind_apply_ok hlast] at hfinish
    cases progress with
    | ongoing | paused => cases hgoes
    | finished | failed =>
      rw [bind_apply_ok hfinish]
      exact outcome_rejournal journal last

/-- A negative delay lasts up to the first turn that ends paused: there the pause fails. -/
theorem Strides.finishWithin_negative {n k : Nat} {stop : Machine σ} (hm : m.Steady permitted)
    (h : Strides n k m stop) (hk : k ≠ 0) {delay : Int} (hdelay : delay < 0) (fuel : Nat) :
    ∃ next, advance m = .ok .paused next ∧
      finishWithin delay (n + fuel) m = .error (.failure .negativePause) next := by
  induction h with
  | refl m => exact absurd rfl hk
  | @cons n k m next stop progress hstep hgoes _ ih =>
    rw [Nat.add_right_comm, finishWithin, bind_apply_ok hstep]
    cases progress with
    | finished | failed => cases hgoes
    | ongoing =>
      rw [hm.advance_ongoing hstep]
      exact ih (hm.step_goesOn hstep rfl).1 hk
    | paused =>
      exact ⟨next, hm.advance_paused hstep, bind_apply_error (pause_negative hdelay next)⟩

theorem Strides.finish_negative {n k : Nat} {stop : Machine σ} (hm : m.Steady permitted)
    (h : Strides n k m stop) (hn : n < m.allowance) (hk : k ≠ 0) {delay : Int}
    (hdelay : delay < 0) :
    ∃ next, advance m = .ok .paused next ∧
      finish delay m = .error (.failure .negativePause) next := by
  obtain ⟨fuel, hfuel⟩ : ∃ fuel, m.allowance = n + fuel := ⟨m.allowance - n, by omega⟩
  obtain ⟨next, hadvance, hfinish⟩ := h.finishWithin_negative hm hk hdelay fuel
  rw [← hfuel] at hfinish
  refine ⟨next, hadvance, ?_⟩
  unfold finish
  rw [bind_apply_ok (get_apply m), bind_apply_error hfinish]

theorem runPaced_eq_finish (delay : Int) (text : String) (stack : List Int) (m : Machine σ) :
    runPaced delay text stack m = finish delay (m.load (Program.tokenize text) stack) := by
  unfold runPaced
  rw [bind_apply_ok (modify_apply _ m)]

end Machine

end StackRover
