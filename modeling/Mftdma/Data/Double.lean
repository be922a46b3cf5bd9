import Mathlib.Algebra.Order.Round
import Mathlib.Data.Int.Log
import Mathlib.Data.Rat.Floor
import Mathlib.Tactic.Linarith
import Mathlib.Tactic.Positivity
import Mathlib.Tactic.Push

/-!
# Arithmetic of `double`

A finite `double` is a rational number `m * 2 ^ e` with a mantissa of 53 bits, and the
result of an operation is the one nearest to the exact result, the one with the even
mantissa when two are. All that is used of rounding follows from its being nearest: it
keeps every `double` and the order. Exponents have no upper bound here, so a client says
why its numbers do not get too large.

`stall` is where adding a number again and again comes to an end: up to there each sum is
larger than the one before, and there nothing changes any more.
-/

namespace Mftdma.Machine

/-- The nearest integer, the even one of two. -/
def roundEven (x : ℚ) : ℤ :=
  if x - ⌊x⌋ < 1 / 2 ∨ x - ⌊x⌋ = 1 / 2 ∧ ⌊x⌋ % 2 = 0 then ⌊x⌋ else ⌊x⌋ + 1

/-- The exponent of the last bit of a mantissa for numbers of this size. -/
def lastBit (x : ℚ) : ℤ := max (Int.log 2 |x| - 52) (-1074)

/-- The `double` nearest to `x`. -/
def double (x : ℚ) : ℚ := roundEven (x / 2 ^ lastBit x) * 2 ^ lastBit x

/-- `x` is the value of a `double`. -/
def IsDouble (x : ℚ) : Prop := ∃ m e : ℤ, x = m * 2 ^ e ∧ |m| ≤ 2 ^ 53 ∧ -1074 ≤ e

/-- The smallest positive `double`. -/
def smallest : ℚ := 2 ^ (-1074 : ℤ)

/-- The sum from which on it does not change when the number `a` is added to it. -/
def stall (a : ℚ) : ℚ := 2 ^ (53 + Int.clog 2 a)

variable {x y a d t : ℚ} {n m e k : ℤ}

/-! ## Nearest integers -/

theorem abs_roundEven_sub_le (x : ℚ) : |(roundEven x : ℚ) - x| ≤ 1 / 2 := by
  have low := Int.floor_le x
  have high := Int.lt_floor_add_one x
  rw [roundEven, abs_le]
  split_ifs with down
  · obtain less | ⟨half, -⟩ := down <;> constructor <;> linarith
  · have up : 1 / 2 ≤ x - ⌊x⌋ := not_lt.mp fun less => down (.inl less)
    push_cast
    constructor <;> linarith

theorem roundEven_nearest (x : ℚ) (n : ℤ) : |(roundEven x : ℚ) - x| ≤ |n - x| := by
  by_cases same : n = roundEven x
  · rw [same]
  · have apart : (1 : ℚ) ≤ |(n : ℚ) - roundEven x| := by
      exact_mod_cast Int.one_le_abs (sub_ne_zero.mpr same)
    have split : |(n : ℚ) - roundEven x| ≤ |n - x| + |(roundEven x : ℚ) - x| := by
      rw [abs_sub_comm (roundEven x : ℚ) x]
      exact abs_sub_le _ x _
    have near := abs_roundEven_sub_le x
    linarith

/-! ## Nearest doubles -/

theorem two_zpow_pos (e : ℤ) : (0 : ℚ) < 2 ^ e := zpow_pos two_pos e

theorem two_zpow_le (le : e ≤ k) : (2 : ℚ) ^ e ≤ 2 ^ k := zpow_le_zpow_right₀ one_le_two le

theorem double_sub (x : ℚ) (n : ℤ) : |n * 2 ^ lastBit x - x| =
    |(n : ℚ) - x / 2 ^ lastBit x| * 2 ^ lastBit x := by
  have pos := two_zpow_pos (lastBit x)
  rw [← abs_of_pos pos, ← abs_mul, abs_of_pos pos, sub_mul, div_mul_cancel₀ x pos.ne']

/-- The error is at most half of the last bit. -/
theorem abs_double_sub_le (x : ℚ) : |double x - x| ≤ 2 ^ lastBit x / 2 := by
  have near := mul_le_mul_of_nonneg_right (abs_roundEven_sub_le (x / 2 ^ lastBit x))
    (two_zpow_pos (lastBit x)).le
  rw [one_div_mul_eq_div] at near
  rwa [double, double_sub]

theorem double_nearest_of_dvd (x : ℚ) (n : ℤ) : |double x - x| ≤ |n * 2 ^ lastBit x - x| := by
  rw [double, double_sub, double_sub]
  exact mul_le_mul_of_nonneg_right (roundEven_nearest _ n) (two_zpow_pos _).le

theorem mul_two_zpow (m : ℤ) (le : e ≤ k) :
    (m : ℚ) * 2 ^ k = ((m * 2 ^ (k - e).toNat : ℤ) : ℚ) * 2 ^ e := by
  have split : (2 : ℚ) ^ k = 2 ^ (k - e).toNat * 2 ^ e := by
    rw [← zpow_natCast, ← zpow_add₀ two_ne_zero, Int.toNat_of_nonneg (by omega), sub_add_cancel]
  rw [split]
  push_cast
  ring

theorem abs_lt_two_zpow (x : ℚ) : |x| < 2 ^ (lastBit x + 53) := by
  have below : |x| < 2 ^ (Int.log 2 |x| + 1) := Int.lt_zpow_succ_log_self one_lt_two |x|
  apply below.trans_le (two_zpow_le _)
  have := le_max_left (Int.log 2 |x| - 52) (-1074)
  rw [lastBit]
  omega

/-- Rounding gives a `double`. -/
theorem isDouble_double (x : ℚ) : IsDouble (double x) := by
  refine ⟨_, _, rfl, ?_, le_max_right _ _⟩
  have pos := two_zpow_pos (lastBit x)
  have inside : |x / 2 ^ lastBit x| < 2 ^ 53 := by
    rw [abs_div, abs_of_pos pos, div_lt_iff₀ pos, ← zpow_natCast, ← zpow_add₀ two_ne_zero,
      add_comm]
    exact abs_lt_two_zpow x
  have near := abs_roundEven_sub_le (x / 2 ^ lastBit x)
  have close := abs_sub_abs_le_abs_sub (roundEven (x / 2 ^ lastBit x) : ℚ) (x / 2 ^ lastBit x)
  have mantissa : |(roundEven (x / 2 ^ lastBit x) : ℚ)| < 2 ^ 53 + 1 := by linarith
  rw [← Int.cast_abs] at mantissa
  exact Int.le_of_lt_add_one (by exact_mod_cast mantissa)

theorem double_zero : double 0 = 0 := by simp [double, roundEven]

/-- No `double` is nearer. -/
theorem double_nearest (x : ℚ) (hd : IsDouble d) : |double x - x| ≤ |d - x| := by
  obtain ⟨m, e, rfl, mantissa, exponent⟩ := hd
  by_cases whole : lastBit x ≤ e
  · rw [mul_two_zpow m whole]
    exact double_nearest_of_dvd x _
  -- the power of two between is nearer to `x`
  · obtain rfl | nonzero := eq_or_ne x 0
    · rw [double_zero, sub_self, abs_zero]
      exact abs_nonneg _
    · have last : lastBit x = Int.log 2 |x| - 52 := by
        rw [lastBit] at whole ⊢
        omega
      have large : (2 : ℚ) ^ 52 * 2 ^ lastBit x ≤ |x| := by
        rw [last, ← zpow_natCast, ← zpow_add₀ two_ne_zero, Nat.cast_ofNat, add_sub_cancel]
        exact Int.zpow_log_le_self one_lt_two (abs_pos.mpr nonzero)
      have small : |(m : ℚ) * 2 ^ e| ≤ 2 ^ 52 * 2 ^ lastBit x := by
        have bits : |(m : ℚ)| ≤ 2 ^ 53 := by exact_mod_cast mantissa
        have shift : (2 : ℚ) ^ e ≤ 2 ^ (lastBit x - 1) := two_zpow_le (by omega)
        rw [zpow_sub_one₀ two_ne_zero] at shift
        rw [abs_mul, abs_of_pos (two_zpow_pos e)]
        calc |(m : ℚ)| * 2 ^ e ≤ 2 ^ 53 * (2 ^ lastBit x * 2⁻¹) :=
              mul_le_mul bits shift (two_zpow_pos e).le (by positivity)
          _ = 2 ^ 52 * 2 ^ lastBit x := by ring
      have between := abs_le.mp small
      obtain negative | positive := nonzero.lt_or_gt
      · have near := double_nearest_of_dvd x (-2 ^ 52)
        rw [abs_of_neg negative] at large
        rw [Int.cast_neg, Int.cast_pow, Int.cast_ofNat,
          abs_of_nonneg (by linarith : 0 ≤ -2 ^ 52 * 2 ^ lastBit x - x)] at near
        rw [abs_of_nonneg (by linarith : 0 ≤ (m : ℚ) * 2 ^ e - x)]
        linarith
      · have near := double_nearest_of_dvd x (2 ^ 52)
        rw [abs_of_pos positive] at large
        rw [Int.cast_pow, Int.cast_ofNat,
          abs_of_nonpos (by linarith : 2 ^ 52 * 2 ^ lastBit x - x ≤ 0)] at near
        rw [abs_of_nonpos (by linarith : (m : ℚ) * 2 ^ e - x ≤ 0)]
        linarith

/-- A `double` is not rounded. -/
theorem IsDouble.double_eq (hx : IsDouble x) : double x = x := by
  have near := double_nearest x hx
  rw [sub_self, abs_zero] at near
  exact sub_eq_zero.mp (abs_eq_zero.mp (near.antisymm (abs_nonneg _)))

/-- What is nearer to the upper one of two numbers is not below the middle. -/
theorem middle_le (less : d < t) (near : |t - x| ≤ |d - x|) : t + d ≤ 2 * x := by
  by_contra below
  rw [not_le] at below
  have closer : |d - x| < t - x := abs_lt.mpr ⟨by linarith, by linarith⟩
  exact absurd (closer.trans_le (le_abs_self _)) (not_lt.mpr near)

/-- Rounding keeps the order. -/
theorem double_mono : Monotone double := by
  intro x y le
  by_contra less
  rw [not_le] at less
  have high := middle_le less (double_nearest x (isDouble_double y))
  have low := middle_le (neg_lt_neg less) (x := -y) (by
    rw [neg_sub_neg, neg_sub_neg, abs_sub_comm, abs_sub_comm y]
    exact double_nearest y (isDouble_double x))
  obtain rfl : x = y := by linarith
  exact lt_irrefl _ less

theorem isDouble_intCast (bits : |n| ≤ 2 ^ 53) : IsDouble n :=
  ⟨n, 0, by rw [zpow_zero, mul_one], bits, by decide⟩

theorem isDouble_zero : IsDouble 0 := ⟨0, 0, by simp, by norm_num, by decide⟩

theorem smallest_pos : 0 < smallest := two_zpow_pos _

/-- All doubles are multiples of the smallest one. -/
theorem IsDouble.exists_eq_mul (hx : IsDouble x) : ∃ n : ℤ, x = n * smallest := by
  obtain ⟨m, e, rfl, -, exponent⟩ := hx
  exact ⟨_, mul_two_zpow m exponent⟩

theorem IsDouble.add_smallest_le (hx : IsDouble x) (hy : IsDouble y) (less : x < y) :
    x + smallest ≤ y := by
  obtain ⟨n, rfl⟩ := hx.exists_eq_mul
  obtain ⟨m, rfl⟩ := hy.exists_eq_mul
  have whole : n < m := by exact_mod_cast lt_of_mul_lt_mul_right less smallest_pos.le
  have next : (n : ℚ) + 1 ≤ m := by exact_mod_cast whole
  have scaled := mul_le_mul_of_nonneg_right next smallest_pos.le
  linarith

/-- Nothing is added that would lower the sum. -/
theorem IsDouble.le_double_add (ht : IsDouble t) (nonneg : 0 ≤ x) : t ≤ double (t + x) :=
  ht.double_eq.ge.trans (double_mono (le_add_of_nonneg_right nonneg))

/-! ## Adding the same number again and again -/

/-- The sum `t` after `a` has been added to it `k` times. -/
def added (a t : ℚ) : ℕ → ℚ
  | 0 => t
  | k + 1 => double (added a t k + a)

/-- The first addition first. -/
theorem added_succ (a t : ℚ) (k : ℕ) : added a t (k + 1) = added a (double (t + a)) k := by
  induction k with
  | zero => rfl
  | succ k ih => exact congrArg (fun s => double (s + a)) ih

theorem isDouble_added (a : ℚ) (ht : IsDouble t) (k : ℕ) : IsDouble (added a t k) := by
  cases k with
  | zero => exact ht
  | succ k => exact isDouble_double _

theorem added_mono (nonneg : 0 ≤ a) (ht : IsDouble t) : Monotone (added a t) :=
  monotone_nat_of_le_succ fun k => (isDouble_added a ht k).le_double_add nonneg

/-- A `double` to be added. -/
structure IsStep (a : ℚ) : Prop where
  pos : 0 < a
  isDouble : IsDouble a

namespace IsStep

theorem le_clog (ha : IsStep a) : -1074 ≤ Int.clog 2 a := by
  obtain ⟨n, eq⟩ := ha.isDouble.exists_eq_mul
  have pos := ha.pos
  rw [eq, mul_pos_iff_of_pos_right smallest_pos] at pos
  have least : smallest ≤ a := by
    have whole : 0 < n := by exact_mod_cast pos
    have one : (1 : ℚ) ≤ n := by exact_mod_cast whole
    rw [eq]
    exact le_mul_of_one_le_left smallest_pos.le one
  have bound : (2 : ℚ) ^ (-1074 : ℤ) ≤ 2 ^ Int.clog 2 a :=
    least.trans (Int.self_le_zpow_clog one_lt_two a)
  exact (zpow_le_zpow_iff_right₀ one_lt_two).mp bound

theorem le_clog_pow (a : ℚ) : a ≤ 2 ^ Int.clog 2 a := Int.self_le_zpow_clog one_lt_two a

theorem clog_pow_lt (ha : IsStep a) : 2 ^ Int.clog 2 a / 2 < a := by
  have below := Int.zpow_pred_clog_lt_self one_lt_two ha.pos
  rwa [Nat.cast_ofNat, zpow_sub_one₀ two_ne_zero, ← div_eq_mul_inv] at below

theorem stall_eq (a : ℚ) : stall a = 2 ^ 53 * 2 ^ Int.clog 2 a := by
  rw [stall, zpow_add₀ two_ne_zero]
  norm_num

theorem isDouble_stall (ha : IsStep a) : IsDouble (stall a) :=
  ⟨2 ^ 53, Int.clog 2 a, by rw [stall_eq]; push_cast; rfl, by norm_num, ha.le_clog⟩

/-- There the sum is less than half a bit away. -/
theorem double_stall_add (ha : IsStep a) : double (stall a + a) = stall a := by
  have unit := two_zpow_pos (Int.clog 2 a)
  have le := le_clog_pow a
  have pos := ha.pos
  have log : Int.log 2 |stall a + a| = 53 + Int.clog 2 a := by
    rw [abs_of_pos (by rw [stall_eq]; positivity)]
    apply le_antisymm
    · rw [← Int.lt_add_one_iff, ← Int.lt_zpow_iff_log_lt one_lt_two (by rw [stall_eq]; positivity)]
      rw [Nat.cast_ofNat, zpow_add_one₀ two_ne_zero, ← stall, stall_eq]
      linarith
    · rw [← Int.zpow_le_iff_le_log one_lt_two (by rw [stall_eq]; positivity)]
      rw [Nat.cast_ofNat, ← stall]
      linarith
  have last : lastBit (stall a + a) = Int.clog 2 a + 1 := by
    have low := ha.le_clog
    rw [lastBit, log]
    omega
  have unit' : (2 : ℚ) ^ (Int.clog 2 a + 1) = 2 ^ Int.clog 2 a * 2 := zpow_add_one₀ two_ne_zero _
  have scaled : (stall a + a) / 2 ^ lastBit (stall a + a) =
      ((2 ^ 52 : ℤ) : ℚ) + a / (2 ^ Int.clog 2 a * 2) := by
    rw [last, unit', stall_eq, add_div]
    congr 1
    push_cast
    field_simp
    norm_num
  have half : a / (2 ^ Int.clog 2 a * 2) ≤ 1 / 2 := by
    rw [div_le_iff₀ (by positivity)]
    linarith
  have floor : ⌊(2 ^ 52 : ℤ) + a / (2 ^ Int.clog 2 a * 2)⌋ = (2 ^ 52 : ℤ) := by
    rw [Int.floor_intCast_add, Int.floor_eq_zero_iff.mpr ⟨by positivity, by linarith⟩, add_zero]
  rw [double, scaled, roundEven, floor, add_sub_cancel_left, if_pos, last, unit', stall_eq]
  · push_cast
    ring
  · exact half.lt_or_eq.imp_right fun tie => ⟨tie, by norm_num⟩

/-- A sum does not get beyond it. -/
theorem double_add_le_stall (ha : IsStep a) (ht : IsDouble t) (le : t ≤ stall a) :
    double (t + a) ≤ stall a := by
  obtain rfl | less := le.eq_or_lt
  · exact ha.double_stall_add.le
  · have unit := two_zpow_pos (Int.clog 2 a)
    have room : t + a ≤ stall a := by
      apply (add_le_add_right (le_clog_pow a) t).trans
      obtain ⟨m, e, rfl, mantissa, -⟩ := ht
      rw [stall_eq] at less ⊢
      by_cases coarse : Int.clog 2 a ≤ e
      · rw [mul_two_zpow m coarse] at less ⊢
        have below := lt_of_mul_lt_mul_right less unit.le
        have next : ((m * 2 ^ (e - Int.clog 2 a).toNat : ℤ) : ℚ) + 1 ≤ 2 ^ 53 := by
          exact_mod_cast Int.add_one_le_of_lt (by exact_mod_cast below)
        have := mul_le_mul_of_nonneg_right next unit.le
        linarith
      · have bits : (m : ℚ) ≤ 2 ^ 53 := by exact_mod_cast (le_abs_self m).trans mantissa
        have shift : (2 : ℚ) ^ e ≤ 2 ^ (Int.clog 2 a - 1) := two_zpow_le (by omega)
        rw [zpow_sub_one₀ two_ne_zero] at shift
        have first := mul_le_mul_of_nonneg_right bits (two_zpow_pos e).le
        linarith
    exact (double_mono room).trans ha.isDouble_stall.double_eq.le

/-- Below it, each sum is larger than the one before. -/
theorem lt_double_add (ha : IsStep a) (nonneg : 0 ≤ t) (less : t < stall a) :
    t < double (t + a) := by
  by_cases reached : stall a ≤ t + a
  · exact less.trans_le (ha.isDouble_stall.double_eq.ge.trans (double_mono reached))
  · rw [not_le] at reached
    have pos : 0 < t + a := add_pos_of_nonneg_of_pos nonneg ha.pos
    have last : lastBit (t + a) ≤ Int.clog 2 a := by
      rw [stall, ← Nat.cast_ofNat (R := ℚ), Int.lt_zpow_iff_log_lt one_lt_two pos] at reached
      have low := ha.le_clog
      rw [lastBit, abs_of_pos pos]
      omega
    have near := (abs_le.mp (abs_double_sub_le (t + a))).1
    have bit := two_zpow_le last
    have half := ha.clog_pow_lt
    linarith

end IsStep

end Mftdma.Machine
