import Mathlib.Algebra.Order.Field.Basic
import Mathlib.Tactic.Linarith
import Mathlib.Tactic.Ring
import Mftdma.Execution.Loop

/-!
# Bisection

`climb` goes up in steps of one until a function reaches a value, and `bisect` halves an
interval until it is short. `Brackets` says that the function has the value, or jumps over it,
between the ends of the interval. Both loops keep it, of any function, and for a monotone one it
tells how far the middle is from where the value would be.
-/

namespace Mftdma.Bisection

open Execution

variable {K β : Type*} [Field K] [LinearOrder β]

/-- `while (f(b) < x) { a = b; b = a + 1; }` on the interval from `a` to `b`. -/
def climb (f : K → β) (x : β) : Loop (K × K) where
  guard b := f b.2 < x
  body b := (b.2, b.2 + 1)

/-- The value lies between the ends. -/
structure Brackets (f : K → β) (x : β) (b : K × K) : Prop where
  below : f b.1 ≤ x
  above : x ≤ f b.2

variable {f : K → β} {x : β} {eps a : K} {b t : K × K} {k : ℕ}

theorem exists_exec_climb (reached : x ≤ f (a + k + 1)) :
    ∃ t, (climb f x).exec k (a, a + 1) = some t := by
  induction k generalizing a with
  | zero =>
      refine ⟨_, Loop.exec_of_not_guard 0 (decide_eq_false (not_lt.mpr ?_))⟩
      simpa using reached
  | succ k ih =>
      by_cases more : f (a + 1) < x
      · rw [Loop.exec_succ_of_guard k (decide_eq_true more)]
        refine ih ?_
        have same : a + 1 + (k : K) + 1 = a + (k + 1 : ℕ) + 1 := by
          push_cast
          ring
        rwa [same]
      · exact ⟨_, Loop.exec_of_not_guard _ (decide_eq_false more)⟩

/-- The value is reached after finitely many steps, or never. -/
theorem climb_terminates_iff :
    (climb f x).Terminates (a, a + 1) ↔ ∃ k : ℕ, x ≤ f (a + k + 1) := by
  constructor
  · rintro ⟨t, returned⟩
    obtain ⟨visited, exit⟩ := Loop.returns_iff.mp returned
    obtain ⟨k, rfl⟩ := visited.invariant (I := fun t => ∃ k : ℕ, t = (a + k, a + k + 1))
      ⟨0, by rw [Nat.cast_zero, add_zero]⟩ (by
        rintro _ - ⟨k, rfl⟩ -
        refine ⟨k + 1, ?_⟩
        rw [Nat.cast_succ, ← add_assoc]
        rfl)
    exact ⟨k, not_lt.mp (of_decide_eq_false exit)⟩
  · rintro ⟨k, reached⟩
    obtain ⟨t, ended⟩ := exists_exec_climb reached
    exact ⟨t, k, ended⟩

variable [LinearOrder K] [IsStrictOrderedRing K]

/-- A pass of `climb` that is made leaves a value below. -/
theorem climb_visits (h : (climb f x).Visits (a, a + 1) t) (low : f a ≤ x) :
    f t.1 ≤ x ∧ a ≤ t.1 ∧ t.2 = t.1 + 1 := by
  refine h.invariant (I := fun t => f t.1 ≤ x ∧ a ≤ t.1 ∧ t.2 = t.1 + 1) ⟨low, le_rfl, rfl⟩ ?_
  rintro t - ⟨-, le, unit⟩ guard
  refine ⟨(of_decide_eq_true guard).le, ?_, rfl⟩
  show a ≤ t.2
  rw [unit]
  exact le.trans (le_add_of_nonneg_right zero_le_one)

theorem climb_returns (h : (climb f x).Returns (a, a + 1) t) (low : f a ≤ x) :
    Brackets f x t ∧ a ≤ t.1 ∧ t.2 = t.1 + 1 := by
  obtain ⟨visited, exit⟩ := Loop.returns_iff.mp h
  obtain ⟨below, le, unit⟩ := climb_visits visited low
  exact ⟨⟨below, not_lt.mp (of_decide_eq_false exit)⟩, le, unit⟩

/-- `while (b - a > eps) (f(m) > x) ? (b = m) : (a = m);` with the middle `m`. -/
def bisect (f : K → β) (x : β) (eps : K) : Loop (K × K) where
  guard b := eps < b.2 - b.1
  body b := if x < f ((b.2 + b.1) / 2) then (b.1, (b.2 + b.1) / 2) else ((b.2 + b.1) / 2, b.2)

/-- Halving keeps the value inside, and the low end does not fall. -/
theorem Brackets.body (h : Brackets f x b) (le : b.1 ≤ b.2) (eps : K) :
    Brackets f x ((bisect f x eps).body b) ∧ b.1 ≤ ((bisect f x eps).body b).1 ∧
      ((bisect f x eps).body b).2 - ((bisect f x eps).body b).1 = (b.2 - b.1) / 2 := by
  show Brackets f x (if _ then _ else _) ∧ b.1 ≤ (if _ then _ else _ : K × K).1 ∧
    (if _ then _ else _ : K × K).2 - (if _ then _ else _ : K × K).1 = _
  split_ifs with high
  · exact ⟨⟨h.below, high.le⟩, le_rfl, by ring⟩
  · refine ⟨⟨not_lt.mp high, h.above⟩, ?_, by ring⟩
    show b.1 ≤ (b.2 + b.1) / 2
    linarith

/-- What `bisect` returns is short and has the value inside. -/
theorem Brackets.returns (h : Brackets f x b) (le : b.1 ≤ b.2)
    (returned : (bisect f x eps).Returns b t) :
    Brackets f x t ∧ b.1 ≤ t.1 ∧ t.1 ≤ t.2 ∧ t.2 - t.1 ≤ eps := by
  obtain ⟨visited, exit⟩ := Loop.returns_iff.mp returned
  obtain ⟨brackets, up, ordered⟩ := visited.invariant
    (I := fun t => Brackets f x t ∧ b.1 ≤ t.1 ∧ t.1 ≤ t.2) ⟨h, le_rfl, le⟩ (by
      rintro t - ⟨brackets, up, ordered⟩ -
      obtain ⟨inside, rise, half⟩ := brackets.body ordered eps
      exact ⟨inside, up.trans rise, by linarith⟩)
  exact ⟨brackets, up, ordered, not_lt.mp (of_decide_eq_false exit)⟩

/-- Each pass halves the interval, so few are needed. -/
theorem exists_exec_bisect (short : b.2 - b.1 ≤ eps * 2 ^ k) :
    ∃ t, (bisect f x eps).exec k b = some t := by
  induction k generalizing b with
  | zero =>
      rw [pow_zero, mul_one] at short
      exact ⟨b, Loop.exec_of_not_guard 0 (decide_eq_false (not_lt.mpr short))⟩
  | succ k ih =>
      by_cases more : eps < b.2 - b.1
      · rw [Loop.exec_succ_of_guard k (decide_eq_true more)]
        refine ih ?_
        rw [pow_succ, ← mul_assoc] at short
        show (if _ then _ else _ : K × K).2 - (if _ then _ else _ : K × K).1 ≤ _
        split_ifs
        · show (b.2 + b.1) / 2 - b.1 ≤ _
          linarith
        · show b.2 - (b.2 + b.1) / 2 ≤ _
          linarith
      · exact ⟨b, Loop.exec_of_not_guard _ (decide_eq_false more)⟩

/-- The middle of a short interval is near the value of a monotone function. -/
theorem Brackets.middle (h : Brackets f x b) (mono : Monotone f) (short : b.2 - b.1 ≤ eps) :
    f ((b.2 + b.1) / 2 - eps / 2) ≤ x ∧ x ≤ f ((b.2 + b.1) / 2 + eps / 2) :=
  ⟨(mono (by linarith)).trans h.below, h.above.trans (mono (by linarith))⟩

end Mftdma.Bisection
