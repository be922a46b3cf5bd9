import Mathlib.Data.Nat.ModEq
import Mathlib.Data.Nat.Notation
import Mathlib.Order.Basic

/-!
# Walking round a finite cycle

`advance c k` is the position reached from `c` by `k` steps `(c + 1) % n`, and
`gap c u` the number of steps, below `n`, from `c` to `u`. Round-robin turns
and open-addressing probes are both such walks.
-/

namespace Mftdma.Cyclic

variable {n : ℕ} {c u : Fin n} {j k : ℕ}

def advance (c : Fin n) (k : ℕ) : Fin n := ⟨(c.val + k) % n, Nat.mod_lt _ c.pos⟩

def gap (c u : Fin n) : ℕ := (u.val + (n - c.val)) % n

theorem advance_val (c : Fin n) (k : ℕ) : (advance c k).val = (c.val + k) % n := rfl

@[simp] theorem advance_zero (c : Fin n) : advance c 0 = c :=
  Fin.ext (by simp [advance_val, Nat.mod_eq_of_lt c.isLt])

@[simp] theorem advance_advance (c : Fin n) (j k : ℕ) :
    advance (advance c j) k = advance c (j + k) :=
  Fin.ext (by simp [advance_val, Nat.add_assoc])

theorem gap_lt (c u : Fin n) : gap c u < n := Nat.mod_lt _ c.pos

@[simp] theorem advance_gap (c u : Fin n) : advance c (gap c u) = u := by
  apply Fin.ext
  have hc := c.isLt
  have whole : c.val + (u.val + (n - c.val)) = u.val + n := by omega
  rw [advance_val, gap, Nat.add_mod_mod, whole, Nat.add_mod_right, Nat.mod_eq_of_lt u.isLt]

theorem gap_advance (c : Fin n) (hk : k < n) : gap c (advance c k) = k := by
  have hc := c.isLt
  have whole : c.val + k + (n - c.val) = k + n := by omega
  rw [gap, advance_val, Nat.mod_add_mod, whole, Nat.add_mod_right, Nat.mod_eq_of_lt hk]

@[simp] theorem gap_self (c : Fin n) : gap c c = 0 := by
  simpa using gap_advance c c.pos

theorem advance_injOn (hj : j < n) (hk : k < n) (h : advance c j = advance c k) : j = k := by
  rw [← gap_advance c hj, h, gap_advance c hk]

/-- A walk from any position, seen from `c`. -/
theorem advance_eq_from (c u : Fin n) (k : ℕ) : advance u k = advance c (gap c u + k) := by
  rw [← advance_advance, advance_gap]

/-- The next position, unless it is `c` again. -/
theorem gap_advance_one (inside : gap c u + 1 < n) : gap c (advance u 1) = gap c u + 1 := by
  rw [advance_eq_from c, gap_advance c inside]

/-- A walk that has come back has passed every position. -/
theorem gap_lt_of_advance_eq_self (pos : 0 < k) (back : advance c k = c) (u : Fin n) :
    gap c u < k := by
  by_contra short
  have within : k < n := Nat.lt_of_le_of_lt (Nat.not_lt.mp short) (gap_lt c u)
  have none : k = 0 := advance_injOn within c.pos (back.trans (advance_zero c).symm)
  omega

/-- The position that a walk comes to next, or one that it has passed. -/
theorem eq_advance_or_gap_lt (h : gap c u < k + 1) : u = advance c k ∨ gap c u < k := by
  obtain less | same := Nat.lt_succ_iff_lt_or_eq.mp h
  · exact .inr less
  · left
    rw [← same, advance_gap]

/-- Any `n` consecutive positions are all positions. -/
theorem exists_advance_eq (c u : Fin n) : ∃ k < n, advance c k = u :=
  ⟨gap c u, gap_lt c u, advance_gap c u⟩

end Mftdma.Cyclic
