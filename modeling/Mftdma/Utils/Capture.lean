import Mathlib.Data.List.Range
import Mftdma.Data.Strings

/-!
# The output of a run in `sched_run`

`sched_run` clears a buffer, reads the output of the simulation into it byte by byte, and
takes the string in it for a list of numbers. The size of the buffer is compared after a byte
has been stored, so that one byte more than the buffer holds may be written, and nothing is
left for the NUL that ends the string.
-/

namespace Mftdma.Utils

open Execution Strings

universe u

/-- `DATA_BUF_SIZE` -/
def dataBufSize : ℕ := 1024

/-- `MAX_OUTPUT`, the size of `drp` -/
def maxOutput : ℕ := 1024

/-- The memory from `data_buf` on, `data_p` as an index into it, and the indices at which
`read` has stored a byte. -/
structure Reader where
  mem : List UInt8
  dataP : ℕ
  stored : List ℕ

namespace Reader

/-- `bzero(data_buf, DATA_BUF_SIZE)` and `data_p = data_buf`, in any memory. -/
def clear (mem : List UInt8) : Reader where
  mem := List.replicate dataBufSize 0 ++ mem.drop dataBufSize
  dataP := 0
  stored := []

/-- `read(p[0], data_p, 1)` when there is a byte. -/
def store (r : Reader) (b : UInt8) : Reader :=
  { r with mem := r.mem.set r.dataP b, stored := r.stored ++ [r.dataP] }

/-- The read loop on the bytes that are still to come. It ends with the output, or at a byte
that has been stored behind the buffer. -/
def fill (r : Reader) : List UInt8 → Reader
  | [] => r
  | b :: output =>
      let r := r.store b
      if r.dataP < dataBufSize then fill { r with dataP := r.dataP + 1 } output else r

variable {r : Reader} {output : List UInt8}

theorem fill_cons_of_lt (b : UInt8) (inside : r.dataP < dataBufSize) : r.fill (b :: output) =
    fill ⟨r.mem.set r.dataP b, r.dataP + 1, r.stored ++ [r.dataP]⟩ output :=
  if_pos inside

theorem fill_cons_of_le (b : UInt8) (outside : dataBufSize ≤ r.dataP) :
    r.fill (b :: output) = r.store b :=
  if_neg (Nat.not_lt.mpr outside)

/-- Bytes are stored one behind the other, up to one behind the buffer. -/
theorem fill_stored (within : r.dataP ≤ dataBufSize) : (r.fill output).stored =
    r.stored ++ List.range' r.dataP (min output.length (dataBufSize + 1 - r.dataP)) := by
  induction output generalizing r with
  | nil => simp [fill]
  | cons b output ih =>
      obtain inside | last := Nat.lt_or_eq_of_le within
      · have bytes : min (b :: output).length (dataBufSize + 1 - r.dataP) =
            min output.length (dataBufSize + 1 - (r.dataP + 1)) + 1 := by
          rw [List.length_cons]
          omega
        have later := ih (r := ⟨r.mem.set r.dataP b, r.dataP + 1, r.stored ++ [r.dataP]⟩) inside
        rw [fill_cons_of_lt b inside, later, bytes, List.range'_succ, List.append_assoc]
        rfl
      · have one : min (b :: output).length (dataBufSize + 1 - r.dataP) = 1 := by
          rw [List.length_cons]
          omega
        rw [fill_cons_of_le b last.ge, one]
        rfl

/-- Where there is room they replace what was there. -/
theorem fill_mem (written rest : List UInt8) (stored : List ℕ)
    (room : written.length + output.length ≤ dataBufSize) (long : output.length ≤ rest.length) :
    (fill ⟨written ++ rest, written.length, stored⟩ output).mem =
      written ++ output ++ rest.drop output.length := by
  induction output generalizing written rest stored with
  | nil => simp [fill]
  | cons b output ih =>
      cases rest with
      | nil => cases long
      | cons old rest =>
          rw [List.length_cons] at room
          have inside : written.length < dataBufSize := by omega
          have set : (written ++ old :: rest).set written.length b = written ++ [b] ++ rest := by
            simp
          have count : (written ++ [b]).length = written.length + 1 := by simp
          have next : (fill ⟨written ++ [b] ++ rest, (written ++ [b]).length,
              stored ++ [written.length]⟩ output).mem =
                written ++ [b] ++ output ++ rest.drop output.length :=
            ih (written ++ [b]) rest _ (by omega) (Nat.le_of_succ_le_succ long)
          rw [fill_cons_of_lt b inside, set, ← count, next, List.append_cons written b output]
          rfl

end Reader

/-- The memory and the bytes stored after the read loop. -/
def capture (mem output : List UInt8) : Reader := (Reader.clear mem).fill output

variable {α : Type u} {conv : Conversion α} {mem output : List UInt8}

theorem capture_stored (mem output : List UInt8) :
    (capture mem output).stored = List.range (min output.length (dataBufSize + 1)) := by
  rw [capture, Reader.fill_stored (Nat.zero_le _), List.range_eq_range']
  rfl

theorem capture_mem (mem : List UInt8) (fits : output.length ≤ dataBufSize) :
    (capture mem output).mem = output ++ (List.replicate (dataBufSize - output.length) 0 ++
      mem.drop dataBufSize) := by
  have long : output.length ≤ (List.replicate dataBufSize (0 : UInt8)).length := by
    rwa [List.length_replicate]
  have filled : (capture mem output).mem =
      [] ++ output ++ (Reader.clear mem).mem.drop output.length :=
    Reader.fill_mem [] (Reader.clear mem).mem [] (by simpa using fits)
      (long.trans (List.length_append ▸ Nat.le_add_right _ _))
  rw [filled, Reader.clear, List.drop_append_of_le_length long, List.drop_replicate]
  rfl

/-- The bytes stored are in the buffer, and so are a NUL, the end of every string that
`sscanf` is given, and the end of its loop. -/
structure Captures (conv : Conversion α) (mem output : List UInt8) : Prop where
  inside : ∀ i ∈ (capture mem output).stored, i < dataBufSize
  terminated : ∃ i < dataBufSize, (capture mem output).mem[i]? = some 0
  scans : ∀ s, (scanning conv (capture mem output).mem).Visits ⟨0, []⟩ s →
    ∃ i < dataBufSize, s.pos ≤ i ∧ (capture mem output).mem[i]? = some 0
  ends : (scanning conv (capture mem output).mem).Terminates ⟨0, []⟩

theorem inside_iff (mem output : List UInt8) :
    (∀ i ∈ (capture mem output).stored, i < dataBufSize) ↔ output.length ≤ dataBufSize := by
  rw [capture_stored]
  simp only [List.mem_range]
  constructor
  · intro all
    by_contra long
    exact Nat.lt_irrefl _ (all dataBufSize (by omega))
  · intro fits i hi
    omega

theorem terminated_iff (mem : List UInt8) (fits : output.length ≤ dataBufSize) :
    (∃ i < dataBufSize, (capture mem output).mem[i]? = some 0) ↔
      output.length < dataBufSize ∨ 0 ∈ output := by
  rw [capture_mem mem fits]
  constructor
  · rintro ⟨i, hi, nul⟩
    by_contra none
    obtain ⟨long, other⟩ := not_or.mp none
    rw [List.getElem?_append_left (by omega)] at nul
    exact other (List.mem_of_getElem? nul)
  · rintro (short | other)
    · have left : 0 < dataBufSize - output.length := Nat.sub_pos_of_lt short
      refine ⟨output.length, short, ?_⟩
      rw [List.getElem?_append_right le_rfl, Nat.sub_self,
        List.getElem?_append_left (by rwa [List.length_replicate]), List.getElem?_replicate,
        if_pos left]
    · obtain ⟨i, found⟩ := List.mem_iff_getElem?.mp other
      obtain ⟨within, -⟩ := List.getElem?_eq_some_iff.mp found
      exact ⟨i, within.trans_le fits, (List.getElem?_append_left within).trans found⟩

/-- The output is read as it should be exactly when it leaves room for a NUL in the buffer, or
fills it and has a NUL itself. -/
theorem captures_iff (conv : Conversion α) (mem output : List UInt8) : Captures conv mem output ↔
    output.length < dataBufSize ∨ output.length = dataBufSize ∧ 0 ∈ output := by
  constructor
  · intro captures
    have fits := (inside_iff mem output).mp captures.inside
    obtain short | nul := (terminated_iff mem fits).mp captures.terminated
    · exact .inl short
    · obtain less | full := Nat.lt_or_eq_of_le fits
      · exact .inl less
      · exact .inr ⟨full, nul⟩
  · intro room
    have fits : output.length ≤ dataBufSize := room.elim Nat.le_of_lt fun full => full.1.le
    have terminated := (terminated_iff mem fits).mpr (room.imp_right And.right)
    obtain ⟨i, hi, nul⟩ := terminated
    exact ⟨(inside_iff mem output).mpr fits, ⟨i, hi, nul⟩,
      fun s visited => ⟨i, hi, (scanning_inside nul (Nat.zero_le _) visited).1, nul⟩,
      scanning_terminates nul (Nat.zero_le _)⟩

/-- The values of an output that is read as it should be have room in `drp`. -/
theorem Captures.drp_lt (h : Captures conv mem output) {s : Scanned α}
    (visited : (scanning conv (capture mem output).mem).Visits ⟨0, []⟩ s) :
    s.vals.length < maxOutput := by
  obtain ⟨i, hi, ahead, -⟩ := h.scans s visited
  obtain ⟨j, -, nul⟩ := h.terminated
  have counted := (scanning_inside nul (Nat.zero_le _) visited).2
  exact (by omega : s.vals.length ≤ i).trans_lt hi

/-- An output of digits, as many as the buffer holds and one more. -/
def overlong : List UInt8 := List.replicate (dataBufSize + 1) 49

/-- The last digit is stored behind the buffer. -/
theorem overlong_not_captured :
    ¬ ∀ mem output, Captures (lf fun digits => digits.length) mem output := by
  intro all
  have fits := (inside_iff [] overlong).mp (all [] overlong).inside
  rw [overlong, List.length_replicate] at fits
  exact Nat.not_succ_le_self _ fits

end Mftdma.Utils
