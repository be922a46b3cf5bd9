import Mathlib.Data.BitVec
import Mathlib.Data.List.Basic
import Mathlib.Tactic.Linarith

/-!
# The occupancy mask of a terminal

`Terminal::reset`, `setmask` and `testmask` keep, in an array of bytes, one bit
for each step of the finest time grid of a superframe. A timeslot `p` of a
frame covers the `fieldsize` bits from `p * fieldsize` on. The definitions
below follow the byte and bit indices of the code; `Mask.bit` reads the array
as a set of bit numbers, and the lemmas restate the three operations on it.
-/

namespace Mftdma.Allocator

/-- The bytes of `_mask`. -/
abbrev Mask := ℕ → BitVec 8

namespace Mask

/-- Bit `b` of the packed array. -/
def bit (mask : Mask) (b : ℕ) : Bool := (mask (b / 8)).getLsbD (b % 8)

/-- `(unsigned char)(1<<j2)` -/
def flag (j2 : ℕ) : BitVec 8 := BitVec.ofNat 8 (1 <<< j2)

/-- `_mask[j1] |= (unsigned char)(1<<j2)` for the byte and bit of number `k`. -/
def setBit (mask : Mask) (k : ℕ) : Mask :=
  Function.update mask (k / 8) (mask (k / 8) ||| flag (k % 8))

/-- `Terminal::reset` clears the bytes that hold the first `masksize` bits. -/
def reset (masksize : ℕ) (mask : Mask) : Mask :=
  fun j => if j < (masksize + 7) / 8 then 0 else mask j

/-- `Terminal::setmask` -/
def setmask (p fieldsize : ℕ) (mask : Mask) : Mask :=
  (List.range fieldsize).foldl (fun m i => m.setBit (p * fieldsize + i)) mask

/-- `Terminal::testmask`: one when no bit of the field is set. -/
def testmask (p fieldsize : ℕ) (mask : Mask) : Bool :=
  (List.range fieldsize).all fun i =>
    let k := p * fieldsize + i
    mask (k / 8) &&& flag (k % 8) == 0

theorem flag_getLsbD : ∀ i j : Fin 8, (flag i).getLsbD j = decide (j = i) := by decide

theorem flag_mod_getLsbD (k b : ℕ) :
    (flag (k % 8)).getLsbD (b % 8) = decide (b % 8 = k % 8) := by
  have h := flag_getLsbD ⟨k % 8, Nat.mod_lt _ (by decide)⟩ ⟨b % 8, Nat.mod_lt _ (by decide)⟩
  simpa [Fin.ext_iff] using h

theorem and_flag_eq_zero_iff (x : BitVec 8) (k : ℕ) :
    x &&& flag (k % 8) = 0 ↔ x.getLsbD (k % 8) = false := by
  constructor
  · intro h
    have hbit := congrArg (fun y : BitVec 8 => y.getLsbD (k % 8)) h
    simpa [flag_mod_getLsbD] using hbit
  · intro h
    apply BitVec.eq_of_getLsbD_eq
    intro b hb
    have hmod : b % 8 = b := Nat.mod_eq_of_lt hb
    have hflag := flag_mod_getLsbD k b
    rw [hmod] at hflag
    by_cases same : b = k % 8
    · subst same
      simp [h]
    · simp [hflag, same]

theorem bit_setBit (mask : Mask) (k b : ℕ) :
    (mask.setBit k).bit b = (mask.bit b || decide (b = k)) := by
  by_cases byte : b / 8 = k / 8
  · have same : b % 8 = k % 8 ↔ b = k := by omega
    simp [bit, setBit, byte, flag_mod_getLsbD, same]
  · have different : b ≠ k := by rintro rfl; exact byte rfl
    simp [bit, setBit, byte, different]

private theorem bit_foldl_setBit (mask : Mask) (first count b : ℕ) :
    ((List.range count).foldl (fun m i => m.setBit (first + i)) mask).bit b =
      (mask.bit b || decide (first ≤ b ∧ b < first + count)) := by
  induction count with
  | zero =>
      have empty : decide (first ≤ b ∧ b < first + 0) = false := by
        rw [decide_eq_false_iff_not]
        omega
      rw [empty, Bool.or_false]
      rfl
  | succ count ih =>
      rw [List.range_succ, List.foldl_append, List.foldl_cons, List.foldl_nil, bit_setBit, ih,
        Bool.or_assoc, ← Bool.decide_or]
      congr 2
      apply propext
      omega

/-- `setmask` adds exactly the bits of its field. -/
theorem bit_setmask (mask : Mask) (p fieldsize b : ℕ) :
    (mask.setmask p fieldsize).bit b =
      (mask.bit b || decide (p * fieldsize ≤ b ∧ b < (p + 1) * fieldsize)) := by
  rw [setmask, bit_foldl_setBit, Nat.succ_mul]

/-- `testmask` holds exactly when the whole field is clear. -/
theorem testmask_iff (mask : Mask) (p fieldsize : ℕ) :
    mask.testmask p fieldsize = true ↔
      ∀ b, p * fieldsize ≤ b → b < (p + 1) * fieldsize → mask.bit b = false := by
  simp only [testmask, List.all_eq_true, List.mem_range, beq_iff_eq, and_flag_eq_zero_iff]
  constructor
  · intro h b low high
    rw [Nat.succ_mul] at high
    have hb := h (b - p * fieldsize) (by omega)
    rwa [Nat.add_sub_cancel' low] at hb
  · intro h i hi
    exact h _ (Nat.le_add_right _ _) (by rw [Nat.succ_mul]; omega)

theorem bit_reset {masksize b : ℕ} (mask : Mask) (hb : b < masksize) :
    (mask.reset masksize).bit b = false := by
  have byte : b / 8 < (masksize + 7) / 8 := by omega
  simp [bit, reset, byte]

/-- More set bits leave fewer free fields. -/
theorem testmask_of_le {mask mask' : Mask} (le : ∀ b, mask.bit b = true → mask'.bit b = true)
    {p fieldsize : ℕ} (h : mask'.testmask p fieldsize = true) :
    mask.testmask p fieldsize = true := by
  rw [testmask_iff] at h ⊢
  intro b low high
  have clear := h b low high
  cases hb : mask.bit b with
  | false => rfl
  | true => rw [le b hb] at clear; exact clear

end Mask

end Mftdma.Allocator
