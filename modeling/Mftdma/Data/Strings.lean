import Mathlib.Data.List.TakeWhile
import Mathlib.Data.Nat.Notation
import Mftdma.Execution.Loop

/-!
# Numbers in a C string

A string in memory goes up to its first NUL. `Conversion` is what `sscanf` does with a string
for one conversion and `%n`, and `scanning` is the loop that converts and goes on behind what
was consumed. As long as a NUL is ahead, the loop stays before it and ends.

`lf` is the conversion `%lf`. It takes the longest text that some number begins with, and
converts it if it is a number; `Lf` are the places in a number where such a text may end.
-/

namespace Mftdma.Strings

open Execution

universe u

/-- The string at an index. Without a NUL it takes all of the memory. -/
def cstring (mem : List UInt8) (p : ℕ) : List UInt8 := (mem.drop p).takeWhile (· ≠ 0)

/-- The value and the number of characters consumed, if there is a value. -/
structure Conversion (α : Type u) where
  scan : List UInt8 → Option (α × ℕ)
  consumes : ∀ s v k, scan s = some (v, k) → 0 < k ∧ k ≤ s.length

/-- The place that the loop has come to, and the values. -/
structure Scanned (α : Type u) where
  pos : ℕ
  vals : List α

variable {α : Type u}

/-- `while(sscanf(p, format, &value, &k) > 0) { vals[n] = value; p += k; n++; }` -/
def scanning (conv : Conversion α) (mem : List UInt8) : Loop (Scanned α) where
  guard s := (conv.scan (cstring mem s.pos)).isSome
  body s := (conv.scan (cstring mem s.pos)).elim s fun r => ⟨s.pos + r.2, s.vals ++ [r.1]⟩

variable {conv : Conversion α} {mem : List UInt8} {p z : ℕ} {s t : Scanned α}

/-- A string ends before any NUL that is ahead. -/
theorem length_cstring_le (nul : mem[z]? = some 0) (ahead : p ≤ z) :
    p + (cstring mem p).length ≤ z := by
  by_contra long
  have inside : z - p < (cstring mem p).length := by omega
  have found : (cstring mem p)[z - p]? = some 0 := calc
    (cstring mem p)[z - p]? = (cstring mem p ++ (mem.drop p).dropWhile (· ≠ 0))[z - p]? :=
      (List.getElem?_append_left inside).symm
    _ = (mem.drop p)[z - p]? := by rw [cstring, List.takeWhile_append_dropWhile]
    _ = some 0 := by rw [List.getElem?_drop, Nat.add_sub_cancel' ahead, nul]
  have member := List.mem_takeWhile_imp (List.mem_of_getElem? found)
  simp at member

/-- A pass adds a value and goes on, but not beyond a NUL. -/
theorem scanning_body (nul : mem[z]? = some 0) (ahead : s.pos ≤ z)
    (goes : (scanning conv mem).guard s = true) :
    s.pos < ((scanning conv mem).body s).pos ∧ ((scanning conv mem).body s).pos ≤ z ∧
      ((scanning conv mem).body s).vals.length = s.vals.length + 1 := by
  obtain ⟨⟨v, k⟩, found⟩ := Option.isSome_iff_exists.mp goes
  obtain ⟨more, within⟩ := conv.consumes _ v k found
  have body : (scanning conv mem).body s = ⟨s.pos + k, s.vals ++ [v]⟩ := by
    show (conv.scan _).elim s _ = _
    rw [found, Option.elim_some]
  have ends := length_cstring_le nul ahead
  rw [body, List.length_append, List.length_singleton]
  exact ⟨Nat.lt_add_of_pos_right more, (Nat.add_le_add_left within _).trans ends, rfl⟩

/-- The loop stays before a NUL, and every value has taken it on. -/
theorem scanning_inside (nul : mem[z]? = some 0) (ahead : p ≤ z)
    (visited : (scanning conv mem).Visits ⟨p, []⟩ s) : s.pos ≤ z ∧ p + s.vals.length ≤ s.pos := by
  refine visited.invariant (I := fun s => s.pos ≤ z ∧ p + s.vals.length ≤ s.pos)
    ⟨ahead, le_rfl⟩ fun a _ ⟨before, counted⟩ goes => ?_
  obtain ⟨further, within, one⟩ := scanning_body nul before goes
  exact ⟨within, by omega⟩

theorem scanning_terminates (nul : mem[z]? = some 0) (ahead : p ≤ z) :
    (scanning conv mem).Terminates ⟨p, []⟩ := by
  obtain ⟨t, ends⟩ := Loop.exists_exec_of_rank (s := ⟨p, []⟩) (I := fun s => s.pos ≤ z)
    (fun s : Scanned α => z - s.pos) ahead
    (fun a before goes => (scanning_body nul before goes).2.1) fun a before goes => by
      obtain ⟨further, within, -⟩ := scanning_body nul before goes
      omega
  exact ⟨t, _, ends⟩

/-! ## The conversion `%lf` -/

/-- How far a number has been read: a sign, decimal or hexadecimal digits, before and behind
the point, an exponent, or letters of `infinity` and of `nan`. -/
inductive Lf where
  | start
  | sign
  | zero
  | int
  | point
  | frac
  | hex
  | hexInt
  | hexPoint
  | hexFrac
  | exp
  | expSign
  | expInt
  | inf (k : ℕ)
  | nan (k : ℕ)
  | chars
  | closed
deriving DecidableEq

namespace Lf

def isHexDigit (ch : Char) : Bool := ch.isDigit || "abcdef".toList.contains ch.toLower

/-- What a number begins with behind its sign. -/
def first (ch : Char) : Option Lf :=
  if ch = '0' then some zero
  else if ch.isDigit then some int
  else if ch = '.' then some point
  else if ch.toLower = 'i' then some (inf 1)
  else if ch.toLower = 'n' then some (nan 1)
  else none

/-- Behind a decimal digit before the point. -/
def afterInt (ch : Char) : Option Lf :=
  if ch.isDigit then some int
  else if ch = '.' then some frac
  else if ch.toLower = 'e' then some exp
  else none

/-- One more character of a number, if it can go on so. -/
def next : Lf → Char → Option Lf
  | start, ch => if ch = '+' ∨ ch = '-' then some sign else first ch
  | sign, ch => first ch
  | zero, ch => if ch.toLower = 'x' then some hex else afterInt ch
  | int, ch => afterInt ch
  | point, ch => if ch.isDigit then some frac else none
  | frac, ch => if ch.isDigit then some frac else if ch.toLower = 'e' then some exp else none
  | hex, ch => if isHexDigit ch then some hexInt else if ch = '.' then some hexPoint else none
  | hexInt, ch =>
      if isHexDigit ch then some hexInt
      else if ch = '.' then some hexFrac
      else if ch.toLower = 'p' then some exp
      else none
  | hexPoint, ch => if isHexDigit ch then some hexFrac else none
  | hexFrac, ch =>
      if isHexDigit ch then some hexFrac else if ch.toLower = 'p' then some exp else none
  | exp, ch =>
      if ch = '+' ∨ ch = '-' then some expSign else if ch.isDigit then some expInt else none
  | expSign, ch => if ch.isDigit then some expInt else none
  | expInt, ch => if ch.isDigit then some expInt else none
  | inf k, ch => if "infinity".toList[k]? = some ch.toLower then some (inf (k + 1)) else none
  | nan k, ch =>
      if "nan".toList[k]? = some ch.toLower then some (nan (k + 1))
      else if k = 3 ∧ ch = '(' then some chars
      else none
  | chars, ch =>
      if ch.isAlphanum ∨ ch = '_' then some chars else if ch = ')' then some closed else none
  | closed, _ => none

/-- What has been read is a number. -/
def accepts : Lf → Bool
  | zero | int | frac | hexInt | hexFrac | expInt | closed => true
  | inf k => k = 3 ∨ k = 8
  | nan k => k = 3
  | _ => false

/-- The longest text on which a number may go on, and how far it has then been read. -/
def read : Lf → List UInt8 → ℕ × Lf
  | q, [] => (0, q)
  | q, b :: s =>
      match q.next (.ofUInt8 b) with
      | none => (0, q)
      | some q' => ((read q' s).1 + 1, (read q' s).2)

theorem read_le (q : Lf) (s : List UInt8) : (read q s).1 ≤ s.length := by
  induction s generalizing q with
  | nil => exact le_rfl
  | cons b s ih =>
      rw [read]
      split
      · exact Nat.zero_le _
      · exact Nat.succ_le_succ (ih _)

/-- Nothing is not a number. -/
theorem read_pos {s : List UInt8} (accepted : (read start s).2.accepts = true) :
    0 < (read start s).1 := by
  cases s with
  | nil => cases accepted
  | cons b s =>
      rw [read] at accepted ⊢
      split at accepted
      · cases accepted
      · exact Nat.succ_pos _

end Lf

/-- `isspace` -/
def isSpace (b : UInt8) : Bool := b = 32 ∨ 9 ≤ b ∧ b ≤ 13

/-- `sscanf(s, "%lf%n", …)`, with the value that `strtod` gives a number. -/
def lf (strtod : List UInt8 → α) : Conversion α where
  scan s :=
    let blanks := (s.takeWhile isSpace).length
    let item := Lf.read .start (s.drop blanks)
    if item.2.accepts then some (strtod ((s.drop blanks).take item.1), blanks + item.1) else none
  consumes s v k found := by
    simp only [Option.ite_none_right_eq_some, Option.some.injEq, Prod.mk.injEq] at found
    obtain ⟨accepted, -, rfl⟩ := found
    have more := Lf.read_pos accepted
    have within := Lf.read_le .start (s.drop (s.takeWhile isSpace).length)
    rw [List.length_drop] at within
    have blanks := (List.takeWhile_sublist (l := s) isSpace).length_le
    omega

end Mftdma.Strings
