import Mathlib.Data.Nat.Notation
import Mathlib.Order.WellFounded
import Mathlib.Tactic.Cases

/-!
# While loops

`Loop σ` is `while (guard) body` over an explicit state. `Loop.exec` runs it
with a bound on the number of passes, so the definition is executable whether
or not the loop ends; `Loop.Returns` and `Loop.Terminates` forget the bound.
`Loop.Visits` relates the entry state to each state found at the loop head.

Partial correctness is `Visits.invariant`, termination is `terminates_of_wf`,
and `not_terminates_of_closed` shows that a loop hangs.
-/

namespace Mftdma.Execution

universe u v

/-- `while (guard) body` over the state `σ`. -/
structure Loop (σ : Type u) where
  guard : σ → Bool
  body : σ → σ

namespace Loop

variable {σ : Type u} (l : Loop σ)

/-- Run at most `passes` times through the body; `none` when more are needed. -/
def exec : ℕ → σ → Option σ
  | 0, s => if l.guard s then none else some s
  | passes + 1, s => if l.guard s then exec passes (l.body s) else some s

/-- The loop started in `s` ends in `t`. -/
def Returns (s t : σ) : Prop := ∃ passes, l.exec passes s = some t

def Terminates (s : σ) : Prop := ∃ t, l.Returns s t

/-- The loop started in `s` comes to its head in `t`. -/
inductive Visits (s : σ) : σ → Prop
  | entry : Visits s s
  | pass {t : σ} : Visits s t → l.guard t = true → Visits s (l.body t)

variable {l} {s t u : σ}

theorem exec_of_not_guard (passes : ℕ) (h : l.guard s = false) : l.exec passes s = some s := by
  cases passes <;> simp [exec, h]

theorem exec_succ_of_guard (passes : ℕ) (h : l.guard s = true) :
    l.exec (passes + 1) s = l.exec passes (l.body s) := by
  simp [exec, h]

theorem Visits.trans (first : l.Visits s t) (second : l.Visits t u) : l.Visits s u := by
  induction second with
  | entry => exact first
  | pass _ guard ih => exact .pass ih guard

theorem Visits.of_body (guard : l.guard s = true) (h : l.Visits (l.body s) t) : l.Visits s t :=
  Visits.trans (.pass .entry guard) h

/-- What each pass preserves holds at every visit of the loop head. -/
theorem Visits.invariant {I : σ → Prop} (h : l.Visits s t) (init : I s)
    (keep : ∀ a, l.Visits s a → I a → l.guard a = true → I (l.body a)) : I t := by
  induction h with
  | entry => exact init
  | pass visited guard ih => exact keep _ visited ih guard

theorem returns_of_not_guard (h : l.guard s = false) : l.Returns s s :=
  ⟨0, exec_of_not_guard 0 h⟩

theorem returns_body_iff (h : l.guard s = true) : l.Returns (l.body s) t ↔ l.Returns s t := by
  constructor
  · rintro ⟨passes, hx⟩
    exact ⟨passes + 1, (exec_succ_of_guard passes h).trans hx⟩
  · rintro ⟨passes, hx⟩
    cases passes with
    | zero => simp [exec, h] at hx
    | succ passes => exact ⟨passes, (exec_succ_of_guard passes h).symm.trans hx⟩

theorem Visits.returns (h : l.Visits s t) (rest : l.Returns t u) : l.Returns s u := by
  induction h with
  | entry => exact rest
  | pass _ guard ih => exact ih ((returns_body_iff guard).mp rest)

/-- The loop returns exactly the visited state whose guard is false. -/
theorem returns_iff : l.Returns s t ↔ l.Visits s t ∧ l.guard t = false := by
  constructor
  · rintro ⟨passes, hx⟩
    induction passes generalizing s with
    | zero =>
        cases hg : l.guard s with
        | true => simp [exec, hg] at hx
        | false =>
            simp only [exec, hg, Bool.false_eq_true, if_false, Option.some.injEq] at hx
            subst hx
            exact ⟨.entry, hg⟩
    | succ passes ih =>
        cases hg : l.guard s with
        | true =>
            rw [exec_succ_of_guard passes hg] at hx
            exact ⟨(ih hx).1.of_body hg, (ih hx).2⟩
        | false =>
            rw [exec_of_not_guard _ hg] at hx
            obtain rfl := Option.some.inj hx
            exact ⟨.entry, hg⟩
  · rintro ⟨visited, exit⟩
    exact visited.returns (returns_of_not_guard exit)

theorem terminates_body_iff (h : l.guard s = true) : l.Terminates (l.body s) ↔ l.Terminates s :=
  exists_congr fun _ => returns_body_iff h

/-- Termination may be shown from any later visit of the loop head. -/
theorem Visits.terminates_iff (h : l.Visits s t) : l.Terminates t ↔ l.Terminates s := by
  induction h with
  | entry => exact Iff.rfl
  | pass _ guard ih => exact (terminates_body_iff guard).trans ih

/-- A loop ends when each pass from a visited state descends in a well-founded
order on some rank of the state. -/
theorem terminates_of_wf {α : Type v} {r : α → α → Prop} (wf : WellFounded r) (rank : σ → α)
    (descend : ∀ a, l.Visits s a → l.guard a = true → r (rank (l.body a)) (rank a)) :
    l.Terminates s := by
  have main : ∀ x a, rank a = x → l.Visits s a → l.Terminates a := by
    intro x
    induction x using wf.induction with
    | h x ih =>
        rintro a rfl visited
        cases hg : l.guard a with
        | true =>
            exact (terminates_body_iff hg).mp
              (ih _ (descend a visited hg) _ rfl (.pass visited hg))
        | false => exact ⟨a, returns_of_not_guard hg⟩
  exact main _ s rfl .entry

/-- A loop that ended within some passes does so within more. -/
theorem exec_of_le {passes more : ℕ} (h : l.exec passes s = some t) (le : passes ≤ more) :
    l.exec more s = some t := by
  induction passes generalizing s more with
  | zero =>
      cases hg : l.guard s with
      | true => simp [exec, hg] at h
      | false => rwa [exec_of_not_guard _ hg] at h ⊢
  | succ passes ih =>
      obtain ⟨k, rfl⟩ := Nat.exists_eq_add_of_le' (Nat.lt_of_lt_of_le (Nat.succ_pos passes) le)
      cases hg : l.guard s with
      | true =>
          rw [exec_succ_of_guard _ hg] at h ⊢
          exact ih h (Nat.le_of_succ_le_succ le)
      | false => rwa [exec_of_not_guard _ hg] at h ⊢

/-- As many passes as the rank of the entry state are enough when each pass lowers it. -/
theorem exists_exec_of_rank {I : σ → Prop} (rank : σ → ℕ) (init : I s)
    (keep : ∀ a, I a → l.guard a = true → I (l.body a))
    (descend : ∀ a, I a → l.guard a = true → rank (l.body a) < rank a) :
    ∃ t, l.exec (rank s) s = some t := by
  have main : ∀ passes a, I a → rank a ≤ passes → ∃ t, l.exec passes a = some t := by
    intro passes
    induction passes with
    | zero =>
        intro a ha bound
        cases hg : l.guard a with
        | true => exact absurd (descend a ha hg) (by omega)
        | false => exact ⟨a, exec_of_not_guard 0 hg⟩
    | succ passes ih =>
        intro a ha bound
        cases hg : l.guard a with
        | true =>
            rw [exec_succ_of_guard passes hg]
            exact ih _ (keep a ha hg) (by have := descend a ha hg; omega)
        | false => exact ⟨a, exec_of_not_guard _ hg⟩
  exact main (rank s) s init (Nat.le_refl _)

/-- A loop hangs when it enters a set of states that the guard never leaves. -/
theorem not_terminates_of_closed {C : σ → Prop} (init : C s) (guard : ∀ a, C a → l.guard a = true)
    (keep : ∀ a, C a → C (l.body a)) : ¬ l.Terminates s := by
  rintro ⟨t, returned⟩
  obtain ⟨visited, exit⟩ := returns_iff.mp returned
  have inside : C t := visited.invariant init fun a _ ha _ => keep a ha
  rw [guard t inside] at exit
  cases exit

end Loop

end Mftdma.Execution
