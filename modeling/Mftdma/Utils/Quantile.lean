import Mathlib.Data.Rat.Cast.Order
import Mathlib.Tactic.NormNum
import Mftdma.Data.Bisection

/-!
# The normal percentile of `fullrun`

`main` computes `q_perc` from the confidence with `erfinv`, which looks for the interval of
length one in which `erf` reaches its argument and bisects it down to `EPS`. Numbers are exact,
and `erf` is a parameter.
-/

namespace Mftdma.Utils

open Execution Bisection

/-- `EPS` -/
def eps : ℚ := 1 / 1000000

/-- `erfinv` of an argument that is not negative. The bisection needs no more than 20 passes. -/
def erfinvFrom (erf : ℚ → ℚ) (passes : ℕ) (x : ℚ) : Option ℚ :=
  ((climb erf x).exec passes (0, 0 + 1)).bind fun b =>
    ((bisect erf x eps).exec 20 b).map fun b => (b.2 + b.1) / 2

/-- `erfinv`; `none` when the program exits, or its first loop makes more passes. -/
def erfinv (erf : ℚ → ℚ) (passes : ℕ) (x : ℚ) : Option ℚ :=
  if 1 < x then none
  else if x < 0 then if 1 < -x then none else (erfinvFrom erf passes (-x)).map fun r => -r
  else erfinvFrom erf passes x

variable {erf : ℚ → ℚ} {passes : ℕ} {x r : ℚ}

/-- The bisection that follows the first loop ends. -/
theorem exec_bisect_of_climb (erf : ℚ → ℚ) (x : ℚ) {b : ℚ × ℚ} (unit : b.2 = b.1 + 1) :
    ∃ t, (bisect erf x eps).exec 20 b = some t := by
  refine exists_exec_bisect ?_
  rw [unit, add_sub_cancel_left, eps]
  norm_num

/-- So it returns whenever `erf` gets there. -/
theorem erfinvFrom_ends_iff (low : erf 0 ≤ x) :
    (∃ passes r, erfinvFrom erf passes x = some r) ↔ ∃ k : ℕ, x ≤ erf (k + 1) := by
  have reaches := climb_terminates_iff (f := erf) (x := x) (a := 0)
  simp only [zero_add] at reaches
  rw [← reaches]
  constructor
  · rintro ⟨passes, r, ended⟩
    obtain ⟨b, found, -⟩ := Option.bind_eq_some_iff.mp ended
    exact ⟨b, passes, by rwa [zero_add] at found⟩
  · rintro ⟨b, passes, found⟩
    have unit := (climb_returns (a := 0) ⟨passes, by rwa [zero_add]⟩ low).2.2
    obtain ⟨t, halved⟩ := exec_bisect_of_climb erf x unit
    refine ⟨passes, (t.2 + t.1) / 2, ?_⟩
    rw [erfinvFrom, zero_add, found, Option.bind_some, halved, Option.map_some]

theorem erfinvFrom_spec (mono : Monotone erf) (low : erf 0 ≤ x)
    (ended : erfinvFrom erf passes x = some r) :
    erf (r - eps / 2) ≤ x ∧ x ≤ erf (r + eps / 2) ∧ 0 ≤ r := by
  obtain ⟨b, found, halved⟩ := Option.bind_eq_some_iff.mp ended
  obtain ⟨t, exited, rfl⟩ := Option.map_eq_some_iff.mp halved
  obtain ⟨brackets, up, unit⟩ := climb_returns ⟨passes, found⟩ low
  obtain ⟨inside, rise, ordered, short⟩ := brackets.returns (by linarith) ⟨20, exited⟩
  obtain ⟨below, above⟩ := inside.middle mono short
  exact ⟨below, above, by linarith⟩

theorem erfinv_of_nonneg (nonneg : 0 ≤ x) :
    erfinv erf passes x = if 1 < x then none else erfinvFrom erf passes x := by
  rw [erfinv, if_neg (not_lt.mpr nonneg)]

/-- `return -erfinv(-x);` -/
theorem erfinv_of_neg (negative : x < 0) :
    erfinv erf passes x = (erfinv erf passes (-x)).map fun r => -r := by
  rw [erfinv, if_neg (by linarith), if_pos negative, erfinv_of_nonneg (by linarith)]
  split_ifs <;> rfl

theorem erfinv_near_of_nonneg (mono : Monotone erf) (low : erf 0 ≤ x) (nonneg : 0 ≤ x) :
    ((∃ passes r, erfinv erf passes x = some r) ↔ x ≤ 1 ∧ ∃ k : ℕ, x ≤ erf (k + 1)) ∧
      ∀ passes r, erfinv erf passes x = some r →
        erf (r - eps / 2) ≤ x ∧ x ≤ erf (r + eps / 2) ∧ 0 ≤ r := by
  simp only [erfinv_of_nonneg nonneg, ← erfinvFrom_ends_iff low]
  constructor
  · constructor
    · rintro ⟨passes, r, ended⟩
      split_ifs at ended with far
      exact ⟨not_lt.mp far, passes, r, ended⟩
    · rintro ⟨near, passes, r, found⟩
      exact ⟨passes, r, by rw [if_neg (not_lt.mpr near), found]⟩
  · intro passes r ended
    split_ifs at ended
    exact erfinvFrom_spec mono low ended

/-- `erfinv` returns exactly when `erf` reaches its argument, which is no larger than one, and
what it returns is within `EPS/2` of where `erf` does so and has the sign of the argument. -/
theorem erfinv_near (erf : ℚ → ℚ) (mono : Monotone erf) (odd : ∀ z, erf (-z) = -erf z) (x : ℚ) :
    ((∃ passes r, erfinv erf passes x = some r) ↔ |x| ≤ 1 ∧ ∃ k : ℕ, |x| ≤ erf (k + 1)) ∧
      ∀ passes r, erfinv erf passes x = some r →
        erf (r - eps / 2) ≤ x ∧ x ≤ erf (r + eps / 2) ∧ 0 ≤ r * x := by
  have zero : erf 0 = 0 := by
    have same := odd 0
    rw [neg_zero] at same
    linarith
  obtain negative | nonneg := lt_or_ge x 0
  · obtain ⟨ends, near⟩ := erfinv_near_of_nonneg mono (x := -x) (by linarith) (by linarith)
    simp only [abs_of_neg negative, erfinv_of_neg negative, Option.map_eq_some_iff]
    rw [← ends]
    constructor
    · exact ⟨fun ⟨passes, _, r, found, _⟩ => ⟨passes, r, found⟩,
        fun ⟨passes, r, found⟩ => ⟨passes, -r, r, found, rfl⟩⟩
    · rintro passes _ ⟨r, found, rfl⟩
      obtain ⟨below, above, sign⟩ := near passes r found
      have left : erf (-r - eps / 2) = -erf (r + eps / 2) := by
        rw [← odd, neg_add, sub_eq_add_neg]
      have right : erf (-r + eps / 2) = -erf (r - eps / 2) := by
        rw [← odd, neg_sub, neg_add_eq_sub]
      exact ⟨by linarith, by linarith,
        mul_nonneg_of_nonpos_of_nonpos (neg_nonpos.mpr sign) negative.le⟩
  · obtain ⟨ends, near⟩ := erfinv_near_of_nonneg mono (by linarith) nonneg
    rw [abs_of_nonneg nonneg]
    refine ⟨ends, fun passes r found => ?_⟩
    obtain ⟨below, above, sign⟩ := near passes r found
    exact ⟨below, above, mul_nonneg sign nonneg⟩

/-- A function that has the sign and the bounds of `erf`, and reaches them at three. -/
def clamp (z : ℚ) : ℚ := max (-1) (min (z / 3) 1)

/-- Three quarters below zero: the first loop makes two passes. -/
theorem erfinv_near_below : ∃ r, erfinv clamp 1 (-3 / 4) = none ∧
    erfinv clamp 2 (-3 / 4) = some r ∧ clamp (r - eps / 2) ≤ -3 / 4 ∧
      -3 / 4 ≤ clamp (r + eps / 2) ∧ 0 ≤ r * (-3 / 4) := by
  have mono : Monotone clamp := fun a b le =>
    max_le_max le_rfl (min_le_min (div_le_div_of_nonneg_right le (by norm_num)) le_rfl)
  have odd : ∀ z, clamp (-z) = -clamp z := by
    intro z
    unfold clamp
    obtain high | low := le_total 1 (z / 3)
    · rw [min_eq_right high, max_eq_right (show (-1 : ℚ) ≤ 1 by norm_num),
        min_eq_left (by linarith), max_eq_left (by linarith)]
    · rw [min_eq_left low]
      obtain inside | below := le_total (-1) (z / 3)
      · rw [max_eq_right inside, min_eq_left (by linarith), max_eq_right (by linarith), neg_div]
      · rw [max_eq_left below, min_eq_right (by linarith), max_eq_right (by norm_num), neg_neg]
  have ends : (erfinv clamp 2 (-3 / 4)).isSome = true := by decide +kernel
  obtain ⟨r, found⟩ := Option.isSome_iff_exists.mp ends
  exact ⟨r, by decide +kernel, found, (erfinv_near clamp mono odd (-3 / 4)).2 2 r found⟩

end Mftdma.Utils
