import Mathlib.Algebra.Order.Group.Unbundled.Int
import Mathlib.Order.Bounds.Basic
import StackRover.Proofs.Executions

/-!
# Quotients and remainders

`DIV` rounds its quotient down, while `MOD` gives its remainder the sign of the dividend. So the two
do not belong to one division with remainder: where the division leaves a rest, and dividend and
divisor have different signs, they miss the dividend by one divisor. Both refuse to divide by zero,
and leave the stack as it was.

* `isGreatest_fdiv`: the quotient, as the greatest of the numbers that do not pass the dividend.
* `fmod_eq_tmod_add`: the remainder of `MOD`, and the one that would belong to the quotient.
* `Builtin.Divides`: what the two operations divide by.
* `division_laws`: what they leave, on every stack and in every machine.
-/

namespace StackRover

variable {σ : Type}

/-! ## Signs -/

theorem sign_eq_sign_iff {a b : Int} (ha : a ≠ 0) (hb : b ≠ 0) :
    a.sign = b.sign ↔ (0 ≤ a ↔ 0 ≤ b) := by
  rcases Int.lt_or_gt_of_ne ha with ha | ha <;> rcases Int.lt_or_gt_of_ne hb with hb | hb
  · simp [Int.sign_eq_neg_one_of_neg, ha, hb, Int.not_le.mpr]
  · simp [Int.sign_eq_neg_one_of_neg, Int.sign_eq_one_of_pos, ha, hb, Int.not_le.mpr, Int.le_of_lt]
  · simp [Int.sign_eq_neg_one_of_neg, Int.sign_eq_one_of_pos, ha, hb, Int.not_le.mpr, Int.le_of_lt]
  · simp [Int.sign_eq_one_of_pos, ha, hb, Int.le_of_lt]

/-- Rounding down, by a division with a positive divisor. -/
theorem fdiv_eq_ediv_abs (a : Int) {b : Int} (hb : b ≠ 0) : a.fdiv b = a * b.sign / |b| := by
  rcases Int.lt_or_gt_of_ne hb with hneg | hpos
  · have hflip : a.fdiv b = (-a).fdiv (-b) := (Int.neg_fdiv_neg a b).symm
    rw [hflip, Int.fdiv_eq_ediv_of_nonneg _ (by omega), Int.sign_eq_neg_one_of_neg hneg,
      abs_of_neg hneg, Int.mul_neg_one]
  · rw [Int.fdiv_eq_ediv_of_nonneg _ (by omega), Int.sign_eq_one_of_pos hpos, abs_of_pos hpos,
      Int.mul_one]

/-! ## The quotient -/

theorem isGreatest_fdiv (a : Int) {b : Int} (hb : b ≠ 0) :
    IsGreatest {n : Int | n * |b| ≤ a * b.sign} (a.fdiv b) := by
  have hiff : ∀ n : Int, n * |b| ≤ a * b.sign ↔ n ≤ a.fdiv b := by
    intro n
    rw [fdiv_eq_ediv_abs a hb]
    exact (Int.le_ediv_iff_mul_le (abs_pos.mpr hb)).symm
  exact ⟨(hiff _).mpr (Int.le_refl _), fun n hn => (hiff n).mp hn⟩

/-! ## The remainder -/

theorem abs_tmod_lt (a : Int) {b : Int} (hb : b ≠ 0) : |a.tmod b| < |b| := by
  have hlt : (a.tmod b).natAbs < b.natAbs := by
    rw [Int.natAbs_tmod]
    exact Nat.mod_lt _ (Int.natAbs_pos.mpr hb)
  rw [Int.abs_eq_natAbs, Int.abs_eq_natAbs]
  exact Int.ofNat_lt.mpr hlt

theorem tmod_eq_zero_or_sign (a b : Int) : a.tmod b = 0 ∨ (a.tmod b).sign = a.sign := by
  by_cases hdvd : b ∣ a
  · exact Or.inl (Int.tmod_eq_zero_of_dvd hdvd)
  · right
    rw [Int.sign_tmod, if_neg hdvd]

/-- The remainder that belongs to the quotient rounded down. -/
theorem fmod_eq_tmod_add (a : Int) {b : Int} (hb : b ≠ 0) :
    a.fmod b = a.tmod b + if a.tmod b = 0 ∨ a.sign = b.sign then 0 else b := by
  rw [Int.fmod_eq_tmod]
  by_cases hdvd : b ∣ a
  · rw [if_pos hdvd, if_pos (Or.inl (Int.tmod_eq_zero_of_dvd hdvd))]
  · have hrest : a.tmod b ≠ 0 := fun h => hdvd (Int.dvd_of_tmod_eq_zero h)
    have ha : a ≠ 0 := fun h => hdvd (h ▸ Int.dvd_zero b)
    simp only [hdvd, hrest, if_false, false_or, sign_eq_sign_iff ha hb]
    split_ifs <;> omega

/-! ## The operations -/

/-- The operation divides the second value by the top one, with the given result. -/
inductive Builtin.Divides : Builtin → (Int → Int → Int) → Prop
  | quotient : Divides .div Int.fdiv
  | remainder : Divides .mod Int.tmod

variable {builtin : Builtin} {f : Int → Int → Int} {a b : Int} {stack : List Int}

theorem Builtin.Divides.minDepth_eq (h : builtin.Divides f) : builtin.minDepth = 2 := by
  cases h <;> rfl

variable [World σ]

theorem Builtin.Divides.perform_eq (h : builtin.Divides f) {m : Memory σ}
    (hstack : m.stack = b :: a :: stack) :
    builtin.perform m =
      if b = 0 then .error (.fault (.divideByZero builtin.name)) m
      else .ok () { m with stack := f a b :: stack } := by
  cases h with
  | quotient => exact divide_cons _ _ hstack
  | remainder => exact divide_cons _ _ hstack

namespace Machine

variable {m : Machine σ}

theorem does_division (h : builtin.Divides f) (hoffers : m.Offers builtin)
    (hstack : m.memory.stack = b :: a :: stack) (hb : b ≠ 0) :
    m.Does builtin { m.memory with stack := f a b :: stack } := by
  have hdepth : builtin.minDepth ≤ m.memory.stack.length := by simp [h.minDepth_eq, hstack]
  refine does_of_perform hoffers hdepth fun journal => ⟨journal, ?_⟩
  rw [h.perform_eq (m := { m.memory with journal := journal }) hstack, if_neg hb]

theorem failsAt_division (h : builtin.Divides f) (hoffers : m.Offers builtin)
    (hstack : m.memory.stack = 0 :: a :: stack) :
    m.FailsAt builtin (.divideByZero builtin.name) m.memory := by
  have hdepth : builtin.minDepth ≤ m.memory.stack.length := by simp [h.minDepth_eq, hstack]
  have hperform : ∀ journal, builtin.perform { m.memory with journal := journal } =
      .error (.fault (.divideByZero builtin.name)) { m.memory with journal := journal } := by
    intro journal
    rw [h.perform_eq (m := { m.memory with journal := journal }) hstack, if_pos rfl]
  exact failsAt_of_perform hoffers hdepth (fun journal => ⟨journal, hperform journal⟩) rfl

/-- A division fails exactly if it is one by zero: otherwise one value takes the place of two. -/
theorem failsAt_division_iff (h : builtin.Divides f) (hoffers : m.Offers builtin)
    (hstack : m.memory.stack = b :: a :: stack) :
    m.FailsAt builtin (.divideByZero builtin.name) m.memory ↔ b = 0 := by
  constructor
  · intro hfails
    by_contra hb
    have hleft := (does_division h hoffers hstack hb).stack_eq.symm.trans hfails.stack_eq
    have hlength := congrArg List.length hleft
    rw [hstack] at hlength
    simp at hlength
  · rintro rfl
    exact failsAt_division h hoffers hstack

/-- **Quotients are rounded down, and remainders have the sign of the dividend.** Let the stack hold
the dividend `a` and the divisor `b` on top of it, in any machine and any world. Where `DIV` and
`MOD` are the built-in operations, each of them fails with a division by zero that names it, and
leaves the memory as it was, exactly if `b` is zero. Otherwise `DIV` leaves the greatest `q` whose
product with the absolute value of `b` does not pass `a`, taken with the sign of `b`; `MOD` leaves
an `r` that is smaller than `b`, zero or of the sign of `a`, and away from `a` by a multiple of `b`;
and `b * q + r` is `a` if `r` is zero or `a` and `b` have the same sign, and misses it by `b` in
every other case. -/
theorem division_laws (hstack : m.memory.stack = b :: a :: stack) :
    (∀ builtin ∈ [Builtin.div, .mod], m.Offers builtin →
      (m.FailsAt builtin (.divideByZero builtin.name) m.memory ↔ b = 0)) ∧
    (b ≠ 0 → ∃ q r : Int,
      (m.Offers .div → m.Does .div { m.memory with stack := q :: stack }) ∧
      (m.Offers .mod → m.Does .mod { m.memory with stack := r :: stack }) ∧
      IsGreatest {n : Int | n * |b| ≤ a * b.sign} q ∧
      |r| < |b| ∧ (r = 0 ∨ r.sign = a.sign) ∧ b ∣ a - r ∧
      ((r = 0 ∨ a.sign = b.sign) → a = b * q + r) ∧
      (¬ (r = 0 ∨ a.sign = b.sign) → a = b * q + r + b)) := by
  refine ⟨fun builtin hmem hoffers => ?_, fun hb => ?_⟩
  · simp only [List.mem_cons, List.not_mem_nil, or_false] at hmem
    rcases hmem with rfl | rfl
    · exact failsAt_division_iff .quotient hoffers hstack
    · exact failsAt_division_iff .remainder hoffers hstack
  · have hsum : a = b * a.fdiv b + a.fmod b := (Int.mul_fdiv_add_fmod a b).symm
    rw [fmod_eq_tmod_add a hb] at hsum
    refine ⟨a.fdiv b, a.tmod b, fun hoffers => does_division .quotient hoffers hstack hb,
      fun hoffers => does_division .remainder hoffers hstack hb, isGreatest_fdiv a hb,
      abs_tmod_lt a hb, tmod_eq_zero_or_sign a b, Int.dvd_self_sub_tmod, fun hsame => ?_,
      fun hother => ?_⟩
    · rw [if_pos hsame] at hsum
      omega
    · rw [if_neg hother] at hsum
      omega

/-- Minus seven is divided by two: four times two is subtracted, and the rest of minus one misses
the dividend by two. -/
theorem division_laws_mixed :
    ∃ m : Machine Void, m.memory.stack = [2, -7, 5] ∧ m.Offers .div ∧ m.Offers .mod ∧
      m.Does .div { m.memory with stack := [-4, 5] } ∧
      m.Does .mod { m.memory with stack := [-1, 5] } ∧
      ¬ m.FailsAt .div (.divideByZero "DIV") m.memory := by
  let m : Machine Void := (plain {} 99).load [] [2, -7, 5]
  have hdiv : m.Offers .div := ⟨rfl, rfl⟩
  have hmod : m.Offers .mod := ⟨rfl, rfl⟩
  have hstack : m.memory.stack = [2, -7, 5] := rfl
  obtain ⟨hfails, hdivides⟩ := division_laws hstack
  obtain ⟨q, r, hquotient, hremainder, ⟨hmem, hgreatest⟩, -, -, -, hsame, hother⟩ :=
    hdivides (by decide)
  have hq : q = -4 := by
    have hle : q * 2 ≤ -7 := hmem
    have hge : -4 ≤ q := hgreatest (show (-4 : Int) * 2 ≤ -7 by decide)
    omega
  have hr : r = -1 := by
    by_cases h : r = 0 ∨ (-7 : Int).sign = (2 : Int).sign
    · have := hsame h
      rcases h with hzero | hsign
      · omega
      · exact absurd hsign (by decide)
    · have := hother h
      omega
  subst hq hr
  refine ⟨m, hstack, hdiv, hmod, hquotient hdiv, hremainder hmod, fun hzero => ?_⟩
  exact absurd ((hfails .div (by simp) hdiv).mp hzero) (by decide)

end Machine

end StackRover
