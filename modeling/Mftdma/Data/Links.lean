import Mathlib.Data.List.Chain
import Mathlib.Data.List.Nodup
import Mftdma.Execution.Loop

/-!
# Linked lists threaded through an array

`Links next p l` says that the list reached from the link `p` through the field
`next` of the cells is exactly `l`. Only the cells of `l` matter, so a list is
not affected by writes to other cells. `Chained next l` is the same without an
end: the link of the last cell may point anywhere, as it does in a queue that
keeps a pointer to its tail.

`walk` is the loop that looks for a place in a list with two pointers, one cell
behind the other.
-/

namespace Mftdma

universe u

variable {α : Type u}

/-- The chain that starts at `p` visits the cells of `l` and then ends. -/
def Links (next : α → Option α) : Option α → List α → Prop
  | p, [] => p = none
  | p, a :: l => p = some a ∧ Links next (next a) l

variable {next next' : α → Option α} {p : Option α} {a : α} {l : List α}

@[simp] theorem links_nil : Links next p [] ↔ p = none := Iff.rfl

@[simp] theorem links_cons : Links next p (a :: l) ↔ p = some a ∧ Links next (next a) l := Iff.rfl

theorem Links.congr (h : Links next p l) (same : ∀ a ∈ l, next' a = next a) :
    Links next' p l := by
  induction l generalizing p with
  | nil => exact h
  | cons a l ih =>
      obtain ⟨rfl, rest⟩ := h
      refine ⟨rfl, ih ?_ fun b hb => same b (List.mem_cons_of_mem a hb)⟩
      rwa [same a List.mem_cons_self]

/-- A chain that starts at a cell visits it first. -/
theorem Links.exists_cons (h : Links next (some a) l) : ∃ rest, l = a :: rest := by
  cases l with
  | nil => cases h
  | cons b rest =>
      obtain ⟨same, -⟩ := h
      cases same
      exact ⟨rest, rfl⟩

theorem Links.head?_eq (h : Links next p l) : p = l.head? := by
  cases l with
  | nil => exact h
  | cons a l => exact h.1

/-- The link of a cell leads to the cell behind it. -/
theorem Links.next_eq {r : List α} (h : Links next p (l ++ a :: r)) : next a = r.head? := by
  induction l generalizing p with
  | nil => exact h.2.head?_eq
  | cons b l ih => exact ih h.2

/-- Cells lead to one list only. -/
theorem Links.unique {r : List α} (h : Links next p l) (h' : Links next p r) : l = r := by
  induction l generalizing p r with
  | nil =>
      rw [h] at h'
      cases r with
      | nil => rfl
      | cons b r => cases h'.1
  | cons a l ih =>
      obtain ⟨rfl, rest⟩ := h
      obtain ⟨r, rfl⟩ := h'.exists_cons
      rw [ih rest h'.2]

/-- A cell is unlinked by moving the link of the cell before it. -/
theorem Links.unlink [DecidableEq α] {b : α} {r : List α} (h : Links next p (l ++ b :: a :: r))
    (nodup : (l ++ b :: a :: r).Nodup) :
    Links (Function.update next b (next a)) p (l ++ b :: r) := by
  induction l generalizing p with
  | nil =>
      obtain ⟨here, -, rest⟩ := h
      obtain ⟨out, -⟩ := List.nodup_cons.mp nodup
      refine ⟨here, ?_⟩
      rw [Function.update_self]
      refine rest.congr fun c hc => Function.update_of_ne ?_ ..
      rintro rfl
      exact out (List.mem_cons_of_mem a hc)
  | cons c l ih =>
      obtain ⟨out, nodup⟩ := List.nodup_cons.mp nodup
      refine ⟨h.1, ?_⟩
      rw [Function.update_of_ne fun same => out (by simp [same])]
      exact ih h.2 nodup

/-- The link of each cell of `l` but the last points to the next one. -/
def Chained (next : α → Option α) (l : List α) : Prop := l.IsChain fun a b => next a = some b

namespace Chained

variable {r : List α} {b c : α}

theorem append_iff : Chained next (l ++ r) ↔ Chained next l ∧ Chained next r ∧
    ∀ a ∈ l.getLast?, ∀ b ∈ r.head?, next a = some b :=
  List.isChain_append

@[simp] theorem nil : Chained next [] := List.isChain_nil

@[simp] theorem singleton : Chained next [a] := List.isChain_singleton a

theorem cons_cons_iff : Chained next (a :: b :: l) ↔ next a = some b ∧ Chained next (b :: l) :=
  List.isChain_cons_cons

theorem tail (h : Chained next (a :: l)) : Chained next l := List.IsChain.tail h

/-- The last link of a chain does not matter. -/
theorem congr (h : Chained next (l ++ [a])) (same : ∀ b ∈ l, next' b = next b) :
    Chained next' (l ++ [a]) := by
  induction l with
  | nil => exact singleton
  | cons b l ih =>
      have rest : Chained next' (l ++ [a]) :=
        ih (tail h) fun c hc => same c (List.mem_cons_of_mem b hc)
      have here := same b List.mem_cons_self
      cases l with
      | nil => exact cons_cons_iff.mpr ⟨here.trans (cons_cons_iff.mp h).1, rest⟩
      | cons c l => exact cons_cons_iff.mpr ⟨here.trans (cons_cons_iff.mp h).1, rest⟩

theorem congr_of_forall (h : Chained next l) (same : ∀ b ∈ l, next' b = next b) :
    Chained next' l := by
  obtain rfl | ⟨front, a, rfl⟩ := l.eq_nil_or_concat'
  · exact nil
  · exact h.congr fun b hb => same b (List.mem_append_left _ hb)

/-- The link of the last cell may change. -/
theorem congr_of_ne_last (h : Chained next l) (nodup : l.Nodup)
    (same : ∀ b ∈ l, l.getLast? ≠ some b → next' b = next b) : Chained next' l := by
  obtain rfl | ⟨front, a, rfl⟩ := l.eq_nil_or_concat'
  · exact nil
  · refine h.congr fun b hb => same b (List.mem_append_left _ hb) fun found => ?_
    obtain rfl : a = b := by simpa using found
    exact (List.nodup_append.mp nodup).2.2 a hb a (List.mem_singleton_self a) rfl

/-- A list is a chain that starts at its first cell. -/
theorem of_links (h : Links next p l) : Chained next l := by
  induction l generalizing p with
  | nil => exact nil
  | cons a l ih =>
      have rest := ih h.2
      cases l with
      | nil => exact singleton
      | cons b l => exact cons_cons_iff.mpr ⟨h.2.1, rest⟩

/-- A chain is a list once its last link is cut. -/
theorem links (h : Chained next l) (ends : ∀ a ∈ l.getLast?, next a = none) :
    Links next l.head? l := by
  induction l with
  | nil => rfl
  | cons a l ih =>
      refine ⟨rfl, ?_⟩
      cases l with
      | nil => exact ends a rfl
      | cons b l =>
          rw [(cons_cons_iff.mp h).1]
          exact ih h.tail fun c hc => ends c (by rwa [List.getLast?_cons_cons])

end Chained

open Execution

/-- `while (go(curr)) { prev = curr; curr = curr->next; }` on the pair of `prev`
and `curr`, stopped when `curr` is null. -/
def walk (next : α → Option α) (go : α → Bool) : Loop (Option α × Option α) where
  guard w := w.2.any go
  body w := (w.2, w.2.bind next)

/-- The walk ends at the first cell of a chain on which it need not go on. -/
theorem walk_exec {go : α → Bool} {before after : List α} {passes : ℕ} (prev : Option α)
    (h : Chained next (before ++ a :: after)) (skip : ∀ b ∈ before, go b = true)
    (stop : go a = false) (enough : before.length ≤ passes) :
    (walk next go).exec passes (prev, (before ++ a :: after).head?) =
      some (before.getLast?.or prev, some a) := by
  induction before generalizing prev passes with
  | nil => exact Loop.exec_of_not_guard passes stop
  | cons b before ih =>
      obtain ⟨passes, rfl⟩ : ∃ k, passes = k + 1 := ⟨passes - 1, by simp at enough; omega⟩
      have link : next b = (before ++ a :: after).head? := by
        cases before with
        | nil => exact (Chained.cons_cons_iff.mp h).1
        | cons c before => exact (Chained.cons_cons_iff.mp h).1
      have rest := ih (some b) h.tail
        (fun c hc => skip c (List.mem_cons_of_mem b hc)) (Nat.le_of_succ_le_succ enough)
      rw [Loop.exec_succ_of_guard passes (skip b List.mem_cons_self)]
      rw [← link] at rest
      refine rest.trans ?_
      cases before <;> simp [List.getLast?_cons]

end Mftdma
